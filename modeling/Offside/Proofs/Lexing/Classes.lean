import Mathlib.Data.List.TakeWhile
import Offside.Lexeme

set_option autoImplicit false

/-!
# The lexical classes by their texts

A class is told here by the characters of its texts, and the extent of a class at a place is shown to be the
length of the longest text of the class that starts there.
-/
namespace Offside

namespace Lexeme

variable {text rest cs : List Char}

/-- A letter with letters and digits behind it. -/
def IsWord (text : List Char) : Prop :=
  ∃ c cs, text = c :: cs ∧ isLetter c ∧ ∀ d ∈ cs, isLetter d ∨ isDigit d

def IsDigits (text : List Char) : Prop := text ≠ [] ∧ ∀ c ∈ text, isDigit c

/-- Digits, or digits on either side of a point. -/
def IsNumber (text : List Char) : Prop :=
  IsDigits text ∨
    ∃ whole fraction, text = whole ++ '.' :: fraction ∧ IsDigits whole ∧ IsDigits fraction

def IsBlanks (text : List Char) : Prop := text ≠ [] ∧ ∀ c ∈ text, isBlank c

/-- What stands between the quotes of a string. -/
inductive IsStringBody : List Char → Prop
  | nil : IsStringBody []
  | plain {c : Char} {cs : List Char} (hquote : c ≠ '"') (hslash : c ≠ '\\') (hline : c ≠ '\n')
      (hrest : IsStringBody cs) : IsStringBody (c :: cs)
  | escaped {c : Char} {cs : List Char} (hline : c ≠ '\n') (hrest : IsStringBody cs) :
      IsStringBody ('\\' :: c :: cs)

def IsString (text : List Char) : Prop :=
  ∃ inner, text = '"' :: (inner ++ ['"']) ∧ IsStringBody inner

def IsComment (text : List Char) : Prop := ∃ cs, text = '/' :: '/' :: cs ∧ '\n' ∉ cs

/-- The texts of a class. -/
def Holds : Lexeme → List Char → Prop
  | .word, text => IsWord text
  | .number, text => IsNumber text
  | .newline, text => text = ['\n']
  | .blanks, text => IsBlanks text
  | .string, text => IsString text
  | .comment, text => IsComment text
  | .operator spelling _, text => text = spelling

/-- The extent is, at every place, the length of the longest of the texts that starts there, zero if none
does. -/
structure Measures (extent : List Char → Nat) (texts : List Char → Prop) : Prop where
  split : ∀ cs, extent cs ≠ 0 →
    ∃ text rest, cs = text ++ rest ∧ extent cs = text.length ∧ texts text
  longest : ∀ text rest, texts text → text.length ≤ extent (text ++ rest)

namespace Measures

variable {extent : List Char → Nat} {texts : List Char → Prop}

theorem le (h : Measures extent texts) (cs : List Char) : extent cs ≤ cs.length := by
  by_cases hzero : extent cs = 0
  · rw [hzero]
    exact Nat.zero_le _
  · obtain ⟨text, rest, rfl, hextent, _⟩ := h.split cs hzero
    rw [hextent, List.length_append]
    exact Nat.le_add_right _ _

theorem holds (h : Measures extent texts) (hextent : extent (text ++ rest) = text.length)
    (hne : text ≠ []) : texts text := by
  have hpos := List.length_pos_iff.2 hne
  obtain ⟨text', rest', he, hextent', htexts⟩ := h.split (text ++ rest) (by omega)
  rwa [(List.append_inj he (by omega)).1]

end Measures

theorem length_le_takeWhile {p : Char → Bool} (h : ∀ c ∈ text, p c) (rest : List Char) :
    text.length ≤ ((text ++ rest).takeWhile p).length := by
  rw [List.takeWhile_append_of_pos h, List.length_append]
  exact Nat.le_add_right _ _

theorem drop_length_takeWhile (p : Char → Bool) (cs : List Char) :
    cs.drop (cs.takeWhile p).length = cs.dropWhile p := by
  induction cs with
  | nil => rfl
  | cons c cs ih =>
    by_cases hc : p c
    · simpa [hc] using ih
    · simp [hc]

theorem measures_word : Measures wordExtent IsWord where
  split cs h := by
    cases cs with
    | nil => exact absurd rfl h
    | cons c cs =>
      simp only [wordExtent] at h ⊢
      split at h
      next hc =>
        refine ⟨c :: cs.takeWhile fun d => isLetter d || isDigit d,
          cs.dropWhile fun d => isLetter d || isDigit d, ?_, ?_, c, _, rfl, hc, fun d hd => ?_⟩
        · rw [List.cons_append, List.takeWhile_append_dropWhile]
        · rw [if_pos hc, List.length_cons, Nat.add_comm]
        · simpa using List.mem_takeWhile_imp hd
      next => exact absurd rfl h
  longest := by
    rintro _ rest ⟨c, cs, rfl, hc, hcs⟩
    have hle := length_le_takeWhile (p := fun d => isLetter d || isDigit d) (by simpa using hcs) rest
    rw [List.cons_append, wordExtent, if_pos hc, List.length_cons]
    omega

theorem isDigits_takeWhile (h : (cs.takeWhile isDigit).length ≠ 0) : IsDigits (cs.takeWhile isDigit) :=
  ⟨fun he => h (by rw [he]; rfl), fun _ hc => List.mem_takeWhile_imp hc⟩

theorem measures_number : Measures numberExtent IsNumber where
  split cs h := by
    have hcs : cs.takeWhile isDigit ++ cs.dropWhile isDigit = cs := List.takeWhile_append_dropWhile
    simp only [numberExtent, drop_length_takeWhile] at h ⊢
    split at h
    next => exact absurd rfl h
    next hwhole =>
      have hdigits := isDigits_takeWhile hwhole
      rw [if_neg hwhole]
      split
      next rest hrest =>
        split
        next => exact ⟨_, _, hcs.symm, rfl, .inl hdigits⟩
        next hfraction =>
          refine ⟨cs.takeWhile isDigit ++ '.' :: rest.takeWhile isDigit, rest.dropWhile isDigit, ?_, ?_,
            .inr ⟨_, _, rfl, hdigits, isDigits_takeWhile hfraction⟩⟩
          · rw [List.append_assoc, List.cons_append, List.takeWhile_append_dropWhile, ← hrest, hcs]
          · rw [List.length_append, List.length_cons]
            omega
      next => exact ⟨_, _, hcs.symm, rfl, .inl hdigits⟩
  longest := by
    intro text rest h
    rcases h with
      ⟨hne, hdigits⟩ | ⟨whole, fraction, rfl, ⟨hwhole, hdigits⟩, hfraction, hdigits'⟩
    · have hle := length_le_takeWhile hdigits rest
      have hpos := List.length_pos_iff.2 hne
      simp only [numberExtent]
      rw [if_neg (by omega)]
      split
      · split <;> omega
      · exact hle
    · have htake : (whole ++ '.' :: (fraction ++ rest)).takeWhile isDigit = whole := by
        rw [List.takeWhile_append_of_pos hdigits, List.takeWhile_cons_of_neg (by decide),
          List.append_nil]
      have hle := length_le_takeWhile hdigits' rest
      have hpos := List.length_pos_iff.2 hwhole
      have hpos' := List.length_pos_iff.2 hfraction
      rw [List.append_assoc, List.cons_append]
      simp only [numberExtent, htake, List.drop_left, List.length_append, List.length_cons]
      rw [if_neg (by omega), if_neg (by omega)]
      omega

theorem measures_newline : Measures (extent .newline) (· = ['\n']) where
  split cs h := by
    cases cs with
    | nil => exact absurd rfl h
    | cons c cs =>
      simp only [extent, List.head?_cons, Option.some.injEq] at h ⊢
      split at h
      next hc => exact ⟨['\n'], cs, by rw [hc]; rfl, if_pos hc, rfl⟩
      next => exact absurd rfl h
  longest := by
    rintro _ rest rfl
    exact Nat.le_refl _

theorem measures_blanks : Measures (extent .blanks) IsBlanks where
  split cs h := by
    refine ⟨cs.takeWhile isBlank, cs.dropWhile isBlank, List.takeWhile_append_dropWhile.symm, rfl,
      fun he => h ?_, fun _ hc => List.mem_takeWhile_imp hc⟩
    rw [extent, he]
    rfl
  longest _ rest h := length_le_takeWhile h.2 rest

/-- The quote that closes a string is found behind its body. -/
theorem stringBodyExtent?_append (h : IsStringBody text) (rest : List Char) :
    stringBodyExtent? (text ++ '"' :: rest) = some (text.length + 1) := by
  induction h with
  | nil => rfl
  | @plain c cs hquote hslash hline _ ih =>
    simp [stringBodyExtent?, hslash, hline, ih, Nat.add_comm 1]
  | @escaped c cs hline _ ih =>
    rw [List.cons_append, List.cons_append, stringBodyExtent?, if_neg hline, ih, Option.map_some]
    simp only [List.length_cons, Option.some.injEq]
    omega

theorem isStringBody_of_extent {n : Nat} (h : stringBodyExtent? cs = some n) :
    ∃ inner rest, cs = inner ++ '"' :: rest ∧ n = inner.length + 1 ∧ IsStringBody inner := by
  fun_induction stringBodyExtent? cs generalizing n with
  | case1 rest =>
    cases h
    exact ⟨[], rest, rfl, rfl, .nil⟩
  | case2 => cases h
  | case3 c cs hc ih =>
    obtain ⟨m, hm, rfl⟩ := Option.map_eq_some_iff.1 h
    obtain ⟨inner, rest, rfl, rfl, hinner⟩ := ih hm
    exact ⟨_, rest, rfl, by simp only [List.length_cons]; omega, .escaped hc hinner⟩
  | case4 => cases h
  | case5 c cs hquote _ hc ih =>
    obtain ⟨m, hm, rfl⟩ := Option.map_eq_some_iff.1 h
    obtain ⟨inner, rest, rfl, rfl, hinner⟩ := ih hm
    rw [not_or] at hc
    exact ⟨_, rest, rfl, by simp only [List.length_cons]; omega, .plain hquote hc.1 hc.2 hinner⟩
  | case6 => cases h

theorem measures_string : Measures stringExtent IsString where
  split cs h := by
    unfold stringExtent at h ⊢
    split at h
    next cs =>
      cases hb : stringBodyExtent? cs with
      | none => simp [hb] at h
      | some n =>
        obtain ⟨inner, rest, rfl, rfl, hinner⟩ := isStringBody_of_extent hb
        refine ⟨'"' :: (inner ++ ['"']), rest, by simp, ?_, inner, rfl, hinner⟩
        simp only [Option.map_some, Option.getD_some, List.length_cons, List.length_append,
          List.length_nil]
        omega
    next => exact absurd rfl h
  longest := by
    rintro _ rest ⟨inner, rfl, hinner⟩
    rw [List.cons_append, List.append_assoc, List.cons_append, List.nil_append, stringExtent,
      stringBodyExtent?_append hinner, Option.map_some, Option.getD_some]
    simp only [List.length_cons, List.length_append, List.length_nil]
    omega

theorem measures_comment : Measures commentExtent IsComment where
  split cs h := by
    unfold commentExtent at h ⊢
    split at h
    next cs =>
      refine ⟨'/' :: '/' :: cs.takeWhile fun c => c ≠ '\n', cs.dropWhile fun c => c ≠ '\n',
        ?_, ?_, _, rfl, fun hmem => ?_⟩
      · rw [List.cons_append, List.cons_append, List.takeWhile_append_dropWhile]
      · rw [List.length_cons, List.length_cons]
        omega
      · simpa using List.mem_takeWhile_imp hmem
    next => exact absurd rfl h
  longest := by
    rintro _ rest ⟨cs, rfl, hcs⟩
    have hle := length_le_takeWhile (p := fun c => c ≠ '\n')
      (fun c hc => by simpa using ne_of_mem_of_not_mem hc hcs) rest
    simp only [List.cons_append, commentExtent, List.length_cons]
    omega

theorem measures_operator (spelling : List Char) (kind : Kind) :
    Measures (extent (.operator spelling kind)) (· = spelling) where
  split cs h := by
    simp only [extent] at h ⊢
    split at h
    next hbegins =>
      obtain ⟨rest, rfl⟩ := List.isPrefixOf_iff_prefix.1 hbegins
      exact ⟨spelling, rest, rfl, if_pos hbegins, rfl⟩
    next => exact absurd rfl h
  longest := by
    rintro text rest rfl
    rw [extent, if_pos (List.isPrefixOf_iff_prefix.2 (List.prefix_append _ _))]

/-- The extent of every class is exact. -/
theorem measures (l : Lexeme) : Measures l.extent l.Holds := by
  cases l with
  | word => exact measures_word
  | number => exact measures_number
  | newline => exact measures_newline
  | blanks => exact measures_blanks
  | string => exact measures_string
  | comment => exact measures_comment
  | operator spelling kind => exact measures_operator spelling kind

/-- The character that stands for all those a text may start with: one letter for the letters, one digit for
the digits, one blank for the blanks. -/
def front (c : Char) : Char :=
  if isLetter c then 'a' else if isDigit c then '0' else if isBlank c then ' ' else c

/-- The front of the texts of a class. -/
def opening : Lexeme → Char
  | .word => 'a'
  | .number => '0'
  | .newline => '\n'
  | .blanks => ' '
  | .string => '"'
  | .comment => '/'
  | .operator spelling _ => spelling.headD ' '

theorem front_opening : ∀ l ∈ classes, front l.opening = l.opening := by decide

theorem isLetter_of_isDigit {c : Char} (h : isDigit c) : isLetter c = false := by
  simp only [isDigit, isLetter, Bool.and_eq_true, decide_eq_true_eq, Bool.or_eq_false_iff,
    Bool.and_eq_false_iff, decide_eq_false_iff_not] at h ⊢
  obtain ⟨hlow, hhigh⟩ := h
  have hhigh' : c.toNat ≤ '9'.toNat := hhigh
  refine ⟨⟨.inl fun ha => ?_, .inl fun ha => ?_⟩, ?_⟩
  · have : 'a'.toNat ≤ c.toNat := ha
    exact absurd (Nat.le_trans this hhigh') (by decide)
  · have : 'A'.toNat ≤ c.toNat := ha
    exact absurd (Nat.le_trans this hhigh') (by decide)
  · rintro rfl
    exact absurd hhigh' (by decide)

theorem front_of_isDigits {c : Char} (h : IsDigits (c :: cs)) : front c = '0' := by
  have hc := h.2 c List.mem_cons_self
  rw [front, isLetter_of_isDigit hc, if_neg Bool.false_ne_true, if_pos hc]

theorem front_of_holds {l : Lexeme} {c : Char} (hl : l ∈ classes) (h : l.Holds (c :: cs)) :
    front c = l.opening := by
  cases l with
  | word =>
    obtain ⟨_, _, he, hc, _⟩ := h
    cases he
    exact if_pos hc
  | number =>
    rcases h with h | ⟨_ | ⟨d, whole⟩, fraction, he, hwhole, _⟩
    · exact front_of_isDigits h
    · exact absurd rfl hwhole.1
    · cases he
      exact front_of_isDigits hwhole
  | newline =>
    cases h
    rfl
  | blanks =>
    have hc := h.2 c List.mem_cons_self
    simp only [isBlank, Bool.or_eq_true, decide_eq_true_eq] at hc
    rcases hc with (rfl | rfl) | rfl <;> rfl
  | string =>
    obtain ⟨_, he, _⟩ := h
    cases he
    rfl
  | comment =>
    obtain ⟨_, he, _⟩ := h
    cases he
    rfl
  | operator spelling kind =>
    obtain rfl : c :: cs = spelling := h
    exact front_opening _ hl

/-- Whether a class that is tried before another leaves nothing longer to it: texts of the two do not start
alike, or the other is an operator that is no longer. -/
def precedes (l m : Lexeme) : Bool :=
  if l.opening ≠ m.opening then true
  else
    match l, m with
    | .operator spelling _, .operator other _ =>
      !spelling.isPrefixOf other || decide (other.length ≤ spelling.length)
    | .comment, .operator other _ => decide (other.length ≤ 2)
    | _, _ => false

theorem precedes_classes : classes.Pairwise fun l m => l.precedes m := by decide

theorem ne_nil_of_holds {l : Lexeme} (hl : l ∈ classes) : ¬ l.Holds [] := by
  cases l with
  | operator spelling kind =>
    rintro rfl
    revert hl
    simp [classes]
  | _ => simp [Holds, IsWord, IsNumber, IsDigits, IsBlanks, IsString, IsComment]

/-- Of two texts that start alike, the class that is tried first has the longer one. -/
theorem length_le_of_precedes {l m : Lexeme} {other behind : List Char}
    (hl : l ∈ classes) (hm : m ∈ classes)
    (hprecedes : l.precedes m) (hholds : l.Holds text) (hother : m.Holds other)
    (he : text ++ rest = other ++ behind) : other.length ≤ text.length := by
  obtain ⟨c, text, rfl⟩ := List.exists_cons_of_ne_nil fun hnil => ne_nil_of_holds hl (hnil ▸ hholds)
  obtain ⟨d, other, rfl⟩ := List.exists_cons_of_ne_nil fun hnil => ne_nil_of_holds hm (hnil ▸ hother)
  obtain rfl : c = d := by injection he
  have hopening : l.opening = m.opening :=
    (front_of_holds hl hholds).symm.trans (front_of_holds hm hother)
  unfold precedes at hprecedes
  rw [if_neg (by simpa using hopening)] at hprecedes
  split at hprecedes
  next spelling _ spelling' _ =>
    obtain rfl : c :: text = spelling := hholds
    obtain rfl : c :: other = spelling' := hother
    rw [Bool.or_eq_true, decide_eq_true_eq] at hprecedes
    refine hprecedes.elim (fun hbegins => ?_) id
    rw [Bool.not_eq_true', Bool.eq_false_iff, ne_eq, List.isPrefixOf_iff_prefix] at hbegins
    exact ((List.prefix_or_prefix_of_prefix ⟨rest, he⟩ ⟨behind, rfl⟩).resolve_left hbegins).length_le
  next spelling _ =>
    obtain rfl : c :: other = spelling := hother
    obtain ⟨cs, hcs, _⟩ := hholds
    rw [hcs]
    exact (of_decide_eq_true hprecedes).trans (Nat.le_add_left 2 _)
  next => exact absurd hprecedes Bool.false_ne_true

theorem mem_classes_of_next? {l : Lexeme} (h : next? cs = some l) : l ∈ classes :=
  List.mem_of_find?_eq_some h

theorem ne_nil_of_next? {l : Lexeme} (h : next? cs = some l) : cs ≠ [] := by
  rintro rfl
  cases h

/-- The text that is found at a place is one of the class. -/
theorem holds_of_next? {l : Lexeme} (h : next? (text ++ rest) = some l)
    (hextent : l.extent (text ++ rest) = text.length) : l.Holds text := by
  have hpos := extent_pos_of_next? _ _ h
  exact l.measures.holds hextent (List.length_pos_iff.1 (hextent ▸ hpos))

/-- The class that is found at a place is one with the longest text there. -/
theorem length_le_of_next? {l m : Lexeme} {other behind : List Char} (h : next? (text ++ rest) = some l)
    (hextent : l.extent (text ++ rest) = text.length) (hm : m ∈ classes) (hother : m.Holds other)
    (he : text ++ rest = other ++ behind) : other.length ≤ text.length := by
  have hl := mem_classes_of_next? h
  have hpos := extent_pos_of_next? _ _ h
  obtain ⟨_, tried, untried, hclasses, htried⟩ := List.find?_eq_some_iff_append.1 h
  have hlonger := m.measures.longest other behind hother
  rw [← he] at hlonger
  have hlist := precedes_classes
  rw [hclasses] at hm hlist
  rcases List.mem_append.1 hm with hm | hm
  · have hzero : m.extent (text ++ rest) = 0 := by simpa using htried m hm
    omega
  · rcases List.mem_cons.1 hm with rfl | hm'
    · omega
    · have hprecedes := List.rel_of_pairwise_cons (List.pairwise_append.1 hlist).2.1 hm'
      exact length_le_of_precedes hl (hclasses ▸ List.mem_append_right _ hm) hprecedes
        (holds_of_next? h hextent) hother he

/-- Where no class is found, no text of a class starts. -/
theorem not_holds_of_next? {m : Lexeme} (h : next? (text ++ rest) = none) (hm : m ∈ classes) :
    ¬ m.Holds text := by
  intro hholds
  have hlonger := m.measures.longest text rest hholds
  have hzero : m.extent (text ++ rest) = 0 := by simpa using List.find?_eq_none.1 h m hm
  rw [List.eq_nil_of_length_eq_zero (by omega : text.length = 0)] at hholds
  exact ne_nil_of_holds hm hholds

end Lexeme

end Offside
