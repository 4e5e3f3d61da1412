import Mathlib.Data.List.Find
import Offside.Proofs.Lexing.Classes

set_option autoImplicit false

/-!
# Seams between texts

What is found at a place depends on what stands further behind only if a text of some class reaches that
far. No text but a line break itself reaches over a line break, and most characters end most texts.
-/
namespace Offside.Lexeme

variable {as bs cs text rest rest' behind : List Char} {l m : Lexeme}

namespace Measures

variable {extent : List Char → Nat} {texts : List Char → Prop}

theorem le_append (h : Measures extent texts) (cs behind : List Char) :
    extent cs ≤ extent (cs ++ behind) := by
  by_cases hzero : extent cs = 0
  · rw [hzero]
    exact Nat.zero_le _
  · obtain ⟨text, rest, rfl, hextent, htext⟩ := h.split cs hzero
    rw [hextent, List.append_assoc]
    exact h.longest text _ htext

/-- Where no text reaches over a seam, it does not matter what stands behind it. -/
theorem extent_append (h : Measures extent texts)
    (hreach : ∀ text rest, texts text → cs ++ behind = text ++ rest → text.length ≤ cs.length) :
    extent (cs ++ behind) = extent cs := by
  refine Nat.le_antisymm ?_ (h.le_append cs behind)
  by_cases hzero : extent (cs ++ behind) = 0
  · rw [hzero]
    exact Nat.zero_le _
  · obtain ⟨text, rest, he, hextent, htext⟩ := h.split _ hzero
    obtain ⟨rest', rfl⟩ := List.prefix_of_prefix_length_le ⟨rest, he.symm⟩
      (List.prefix_append cs behind) (hreach text rest htext he)
    rw [hextent]
    exact h.longest text rest' htext

end Measures

theorem next?_congr (h : ∀ l ∈ classes, l.extent as = l.extent bs) : next? as = next? bs := by
  unfold next?
  refine List.find?_congr fun l hl => ?_
  rw [h l hl]

/-- A text of a class is found with less behind it too. -/
theorem next?_of_append {mid : List Char} (hclass : next? (text ++ (mid ++ behind)) = some l)
    (hextent : l.extent (text ++ (mid ++ behind)) = text.length) :
    next? (text ++ mid) = some l ∧ l.extent (text ++ mid) = text.length := by
  have hpos := extent_pos_of_next? _ _ hclass
  have hholds := holds_of_next? hclass hextent
  have hless (m : Lexeme) := m.measures.le_append (text ++ mid) behind
  simp only [List.append_assoc] at hless
  have hsame : l.extent (text ++ mid) = text.length :=
    Nat.le_antisymm (hextent ▸ hless l) (l.measures.longest text mid hholds)
  refine ⟨?_, hsame⟩
  obtain ⟨_, tried, untried, hclasses, htried⟩ := List.find?_eq_some_iff_append.1 hclass
  rw [hextent, ← hsame] at hpos
  refine List.find?_eq_some_iff_append.2 ⟨by simpa using Nat.ne_of_gt hpos, tried, untried, hclasses, ?_⟩
  intro m hm
  have hzero : m.extent (text ++ (mid ++ behind)) = 0 := by simpa using htried m hm
  have hle := hless m
  simp only [ne_eq, decide_not, Bool.not_not, decide_eq_true_eq]
  omega

/-- Whether a character may stand in a text of the class behind its first character. -/
def continues : Lexeme → Char → Bool
  | .word, c => isLetter c || isDigit c
  | .number, c => isDigit c || c = '.'
  | .newline, _ => false
  | .blanks, c => isBlank c
  | .string, c => c ≠ '\n'
  | .comment, c => c ≠ '\n'
  | .operator spelling _, c => c ∈ spelling.tail

theorem IsStringBody.newline_not_mem (h : IsStringBody text) : '\n' ∉ text := by
  induction h with
  | nil => exact List.not_mem_nil
  | plain _ _ hline _ ih => exact List.not_mem_cons_of_ne_of_not_mem hline.symm ih
  | escaped hline _ ih =>
    exact List.not_mem_cons_of_ne_of_not_mem (by decide)
      (List.not_mem_cons_of_ne_of_not_mem hline.symm ih)

theorem continues_of_holds {c : Char} (h : l.Holds (c :: cs)) : ∀ d ∈ cs, l.continues d := by
  cases l with
  | word =>
    obtain ⟨_, _, he, _, hcs⟩ := h
    cases he
    simpa [continues] using hcs
  | number =>
    have hall : ∀ d ∈ c :: cs, continues .number d := by
      rcases h with h | ⟨whole, fraction, he, hwhole, hfraction⟩
      · exact fun d hd => by simp [continues, h.2 d hd]
      · intro d hd
        rw [he] at hd
        rcases List.mem_append.1 hd with hd | hd
        · simp [continues, hwhole.2 d hd]
        · rcases List.mem_cons.1 hd with rfl | hd
          · rfl
          · simp [continues, hfraction.2 d hd]
    exact (List.forall_mem_cons.1 hall).2
  | newline =>
    cases h
    exact fun d hd => absurd hd List.not_mem_nil
  | blanks => exact (List.forall_mem_cons.1 h.2).2
  | string =>
    obtain ⟨inner, he, hinner⟩ := h
    cases he
    intro d hd
    rcases List.mem_append.1 hd with hd | hd
    · simpa [continues] using ne_of_mem_of_not_mem hd hinner.newline_not_mem
    · rw [List.mem_singleton.1 hd]
      rfl
  | comment =>
    obtain ⟨_, he, hcs⟩ := h
    cases he
    refine List.forall_mem_cons.2 ⟨rfl, fun d hd => ?_⟩
    simpa [continues] using ne_of_mem_of_not_mem hd hcs
  | operator spelling kind =>
    obtain rfl : c :: cs = spelling := h
    exact fun d hd => decide_eq_true hd

theorem continues_of_append {c : Char} (hcs : cs ≠ []) (h : l.Holds (cs ++ c :: rest)) : l.continues c := by
  obtain ⟨b, bs, rfl⟩ := List.exists_cons_of_ne_nil hcs
  exact continues_of_holds h c (by simp)

/-- A text reaches over a seam only if its class goes on with the character behind it. -/
theorem length_le_of_not_continues {c : Char} (hcs : cs ≠ []) (hc : m.continues c = false)
    (hholds : m.Holds text) (he : cs ++ c :: behind = text ++ rest) : text.length ≤ cs.length := by
  by_contra hlt
  obtain ⟨more, rfl⟩ := List.prefix_of_prefix_length_le (List.prefix_append cs (c :: behind))
    ⟨rest, he.symm⟩ (Nat.le_of_not_le hlt)
  cases more with
  | nil => simp at hlt
  | cons d more =>
    rw [List.append_assoc, List.append_cancel_left_eq, List.cons_append] at he
    obtain ⟨rfl, _⟩ := List.cons.inj he
    exact Bool.false_ne_true (hc.symm.trans (continues_of_append hcs hholds))

theorem continues_newline : ∀ l ∈ classes, l.continues '\n' = false := by decide

/-- Before a line break everything is as at the end of the text. -/
theorem extent_append_newline (hl : l ∈ classes) (hcs : cs ≠ []) (behind : List Char) :
    l.extent (cs ++ '\n' :: behind) = l.extent cs :=
  l.measures.extent_append fun _ _ => length_le_of_not_continues hcs (continues_newline l hl)

theorem next?_append_newline (hcs : cs ≠ []) (behind : List Char) :
    next? (cs ++ '\n' :: behind) = next? cs :=
  next?_congr fun _ hl => extent_append_newline hl hcs behind

/-- Whether a text of the class ends where the character stands next, whatever comes behind it. -/
def stopsAt : Lexeme → Char → Bool
  | .string, _ => true
  | .operator _ _, c => c ∉ ['=', '>', '/']
  | l, c => !l.continues c

/-- The quote that ends a string is the first one without a backslash before it. -/
theorem length_le_of_isString (h : IsString text) (hother : IsString cs)
    (he : text ++ rest = cs ++ behind) : cs.length ≤ text.length := by
  obtain ⟨inner, rfl, hinner⟩ := h
  obtain ⟨inner', rfl, hinner'⟩ := hother
  simp only [List.cons_append, List.append_assoc, List.nil_append, List.cons.injEq, true_and] at he
  have hbody := stringBodyExtent?_append hinner rest
  rw [he, stringBodyExtent?_append hinner' behind, Option.some.injEq] at hbody
  simp only [List.length_cons, List.length_append, List.length_nil]
  omega

/-- Whether the class is one of those that share their first characters with others. -/
def isSign : Lexeme → Bool
  | .comment => true
  | .operator _ _ => true
  | _ => false

theorem eq_of_opening : ∀ l ∈ classes, ∀ m ∈ classes,
    m.opening = l.opening → m = l ∨ l.isSign ∧ m.isSign := by decide

/-- Two texts that start at one place are of one class, or of two of those that share characters. -/
theorem eq_or_isSign {other : List Char} (hl : l ∈ classes) (hm : m ∈ classes) (hholds : l.Holds text)
    (hother : m.Holds other) (he : text ++ rest = other ++ behind) : m = l ∨ l.isSign ∧ m.isSign := by
  obtain ⟨c, text, rfl⟩ := List.exists_cons_of_ne_nil fun hnil => ne_nil_of_holds hl (hnil ▸ hholds)
  obtain ⟨d, other, rfl⟩ := List.exists_cons_of_ne_nil fun hnil => ne_nil_of_holds hm (hnil ▸ hother)
  obtain rfl : c = d := by injection he
  exact eq_of_opening l hl m hm ((front_of_holds hm hother).symm.trans (front_of_holds hl hholds))

/-- Where a text of a class starts that shares its first character with no other, the class is found. -/
theorem next?_of_holds (hl : l ∈ classes) (hsign : l.isSign = false) (hholds : l.Holds text)
    (rest : List Char) : next? (text ++ rest) = some l := by
  cases hclass : next? (text ++ rest) with
  | none => exact absurd hholds (not_holds_of_next? hclass hl)
  | some m =>
    have hm := mem_classes_of_next? hclass
    have hpos := extent_pos_of_next? _ _ hclass
    obtain ⟨other, behind, he, _, hother⟩ := m.measures.split _ (Nat.ne_of_gt hpos)
    rcases eq_or_isSign hl hm hholds hother he with rfl | ⟨hsign', _⟩
    · rfl
    · exact absurd (hsign.symm.trans hsign') Bool.false_ne_true

/-- Whether an operator is written as operators are: at most two characters, the second of them one of two,
and no slash at the start but the one that stands alone. -/
def isBrief : Lexeme → Bool
  | .operator spelling _ => spelling.length ≤ 2 && spelling.tail.all (· ∈ ['=', '>']) &&
      (spelling.head? ≠ some '/' || spelling = ['/'])
  | _ => true

theorem isBrief_of_mem : ∀ l ∈ classes, l.isBrief := by decide

theorem spelling_of_mem {spelling : List Char} {kind : Kind} (h : .operator spelling kind ∈ classes) :
    spelling.length ≤ 2 ∧ (∀ c ∈ spelling.tail, c ∈ ['=', '>']) ∧
      (spelling.head? = some '/' → spelling = ['/']) := by
  have hbrief := isBrief_of_mem _ h
  simp only [isBrief, Bool.and_eq_true, Bool.or_eq_true, List.all_eq_true, decide_eq_true_eq] at hbrief
  exact ⟨hbrief.1.1, hbrief.1.2, fun hslash => hbrief.2.resolve_left (absurd hslash)⟩

/-- An operator or a comment that a longer one goes on from does not stop there. -/
theorem not_stopsAt_of_isSign {c : Char} {more : List Char} (hl : l ∈ classes) (hm : m ∈ classes)
    (hsign : l.isSign) (hsign' : m.isSign) (hne : text ≠ [])
    (hholds : l.Holds text) (hother : m.Holds (text ++ c :: more)) : l.stopsAt c = false := by
  have hcontinues : m.continues c := continues_of_append hne hother
  obtain ⟨d, text, rfl⟩ := List.exists_cons_of_ne_nil hne
  cases m with
  | comment =>
    cases l with
    | comment => simp [stopsAt, hcontinues]
    | operator spelling kind =>
      obtain ⟨cs, he, _⟩ := hother
      obtain rfl : d :: text = spelling := hholds
      rw [List.cons_append] at he
      obtain ⟨rfl, he⟩ := List.cons.inj he
      cases (spelling_of_mem hl).2.2 rfl
      cases he
      rfl
    | _ => cases hsign
  | operator other kind =>
    obtain rfl : d :: text ++ c :: more = other := hother
    obtain ⟨hlength, htail, _⟩ := spelling_of_mem hm
    cases l with
    | comment =>
      obtain ⟨cs, he, _⟩ := hholds
      rw [he] at hlength
      simp at hlength
    | operator spelling kind =>
      have hc := htail c (by simp)
      simp only [List.mem_cons, List.not_mem_nil, or_false] at hc
      rcases hc with rfl | rfl <;> rfl
    | _ => cases hsign
  | _ => cases hsign'

/-- A text that a longer one goes on from does not stop there. -/
theorem not_stopsAt_of_holds {c : Char} {more : List Char} (hl : l ∈ classes) (hm : m ∈ classes)
    (hholds : l.Holds text) (hother : m.Holds (text ++ c :: more)) : l.stopsAt c = false := by
  have hne : text ≠ [] := fun hnil => ne_nil_of_holds hl (hnil ▸ hholds)
  rcases eq_or_isSign hl hm hholds hother (List.append_nil _).symm with rfl | ⟨hsign, hsign'⟩
  · have hcontinues : m.continues c := continues_of_append hne hother
    cases m with
    | string =>
      have hle := length_le_of_isString hholds hother (List.append_nil _).symm
      simp only [List.length_cons, List.length_append] at hle
      omega
    | operator spelling kind => exact not_stopsAt_of_isSign hl hl rfl rfl hne hholds hother
    | _ => simp [stopsAt, hcontinues]
  · exact not_stopsAt_of_isSign hl hm hsign hsign' hne hholds hother

/-- All but blanks and comments stop at a space and at a line break. -/
theorem stopsAt_space : ∀ l ∈ classes, l ≠ .blanks → l ≠ .comment →
    l.stopsAt ' ' ∧ l.stopsAt '\n' := by decide

/-- What was found at a place is found there again if it stops at what stands behind it now. -/
theorem next?_of_stopsAt (hclass : next? (text ++ rest) = some l)
    (hextent : l.extent (text ++ rest) = text.length) (hstops : ∀ c ∈ rest'.head?, l.stopsAt c) :
    next? (text ++ rest') = some l ∧ l.extent (text ++ rest') = text.length := by
  have hl := mem_classes_of_next? hclass
  have hholds := holds_of_next? hclass hextent
  have halone : next? (text ++ []) = some l ∧ _ := next?_of_append hclass hextent
  rw [List.append_nil] at halone
  have hsame : ∀ m ∈ classes, m.extent (text ++ rest') = m.extent text := by
    intro m hm
    refine m.measures.extent_append fun other behind hother he => ?_
    by_contra hlt
    obtain ⟨more, rfl⟩ := List.prefix_of_prefix_length_le (List.prefix_append text rest')
      ⟨behind, he.symm⟩ (Nat.le_of_not_le hlt)
    obtain ⟨c, more, rfl⟩ := List.exists_cons_of_ne_nil fun hnil : more = [] => hlt (by simp [hnil])
    rw [List.append_assoc, List.append_cancel_left_eq, List.cons_append] at he
    have hfalse := not_stopsAt_of_holds hl hm hholds hother
    exact Bool.false_ne_true (hfalse.symm.trans (hstops c (by simp [he])))
  exact ⟨(next?_congr hsame).trans halone.1, (hsame l hl).trans halone.2⟩

/-- The character ends every text but a comment, and only strings and comments have it further on. -/
def Divides (c : Char) : Prop :=
  ∀ l ∈ classes, l ≠ .comment → l.stopsAt c ∧ (l.continues c → l = .string)

theorem divides_paren : Divides '(' ∧ Divides ')' := by
  unfold Divides
  decide

/-- A comment that ends earlier is one too. -/
theorem IsComment.of_append (h : IsComment (text ++ rest)) (htwo : 2 ≤ text.length) : IsComment text := by
  obtain ⟨cs, he, hcs⟩ := h
  match text, htwo with
  | c :: d :: text, _ =>
    simp only [List.cons_append, List.cons.injEq] at he
    obtain ⟨rfl, rfl, rfl⟩ := he
    exact ⟨text, rfl, fun hmem => hcs (List.mem_append_left rest hmem)⟩

/-- What was found at a place is found there again if the text goes on otherwise from a character on that
divides. -/
theorem next?_of_divides {mid : List Char} {c : Char} (hclass : next? (text ++ (mid ++ rest)) = some l)
    (hextent : l.extent (text ++ (mid ++ rest)) = text.length) (hcomment : l ≠ .comment) (hc : Divides c)
    (behind : List Char) : next? (text ++ (mid ++ c :: behind)) = some l ∧
      l.extent (text ++ (mid ++ c :: behind)) = text.length := by
  have hl := mem_classes_of_next? hclass
  have hholds := holds_of_next? hclass hextent
  have hpos := List.length_pos_iff.2 fun hnil : text = [] => ne_nil_of_holds hl (hnil ▸ hholds)
  cases mid with
  | nil =>
    refine next?_of_stopsAt hclass hextent fun d hd => ?_
    rw [← Option.some.inj hd]
    exact (hc l hl hcomment).1
  | cons d mid =>
    obtain ⟨halone, hextent⟩ := next?_of_append hclass hextent
    have hsame : ∀ m ∈ classes,
        m.extent (text ++ d :: mid ++ c :: behind) = m.extent (text ++ d :: mid) := by
      intro m hm
      refine m.measures.extent_append fun other more hother he => ?_
      by_cases hcontinues : m.continues c = false
      · exact length_le_of_not_continues (by simp) hcontinues hother he
      by_contra hlt
      obtain ⟨bs, rfl⟩ := List.prefix_of_prefix_length_le (List.prefix_append _ _) ⟨more, he.symm⟩
        (Nat.le_of_not_le hlt)
      by_cases hm' : m = .comment
      · -- a comment that reaches this far would have been found before
        subst hm'
        have hshort : IsComment (text ++ d :: mid) := IsComment.of_append hother (by simp; omega)
        have hle := length_le_of_next? halone hextent hm hshort (List.append_nil _).symm
        simp only [List.length_append, List.length_cons] at hle
        omega
      · obtain rfl : m = .string := (hc m hm hm').2 (by simpa using hcontinues)
        have hfront : text ++ (d :: mid ++ bs) = text ++ d :: mid ++ bs ++ [] := by simp
        rcases eq_or_isSign hl hm hholds hother hfront with rfl | ⟨_, hsign⟩
        · have hle := length_le_of_isString hholds hother hfront
          simp only [List.length_append, List.length_cons] at hle
          omega
        · cases hsign
    rw [← List.append_assoc]
    exact ⟨(next?_congr hsame).trans halone, (hsame l hl).trans hextent⟩

end Offside.Lexeme
