import Offside.Proofs.Layout.Printing
import Offside.Proofs.Lexing.Seams
import Offside.Proofs.Scanning
import Offside.Proofs.Spellings

set_option autoImplicit false

/-!
# What is cut as it is written

A token is written so that its text is cut whole, whatever stands behind it on the other side of a space or
a line break. Words, numbers, strings and signs are, and so is every piece of what a well-formed tree is
written as.
-/
namespace Offside

/-- Nothing is ahead, or a space or a line break is next. -/
def Parted (rest : List Char) : Prop := ∀ c ∈ rest.head?, c = ' ' ∨ c = '\n'

/-- The text is cut into one token of the kind wherever it stands. -/
structure Lexical (kind : Kind) (text : List Char) : Prop where
  not_newline : kind ≠ .newline
  next : ∃ c cs, text = c :: cs ∧ Lexeme.isBlank c = false
  cut : ∃ l : Lexeme, l.kind? text = some kind ∧ ∀ rest, Parted rest →
    Lexeme.next? (text ++ rest) = some l ∧ l.extent (text ++ rest) = text.length

namespace Lexeme

variable {l : Lexeme} {text rest : List Char}

theorem holds_of_isText (h : IsText l text) : l.Holds text := by
  have hextent : l.extent (text ++ []) = text.length := by
    rw [List.append_nil]
    exact h.2
  exact l.measures.holds hextent h.1

theorem next?_blank (cs : List Char) : next? (' ' :: cs) = some .blanks := rfl

theorem next?_newline (cs : List Char) : next? ('\n' :: cs) = some .newline := rfl

theorem extent_blanks {n : Nat} (h : ∀ c ∈ rest.head?, isBlank c = false) :
    extent .blanks (List.replicate n ' ' ++ rest) = n := by
  have hblank : ∀ c ∈ List.replicate n ' ', isBlank c := fun c hc => by
    rw [(List.mem_replicate.1 hc).2]
    rfl
  have hrest : rest.takeWhile isBlank = [] := by
    cases rest with
    | nil => rfl
    | cons c cs => rw [List.takeWhile_cons_of_neg (by simp [h c rfl])]
  simp only [extent, List.takeWhile_append_of_pos hblank, hrest, List.append_nil,
    List.length_replicate]

end Lexeme

namespace Text

theorem spells_literalChar (c : Char) : Spells c (literalChar c) := by
  by_cases hslash : c = '\\'
  · rw [hslash]
    exact .short (by decide)
  by_cases hquote : c = '"'
  · rw [hquote]
    exact .short (by decide)
  by_cases hline : c = '\n'
  · rw [hline]
    exact .short (by decide)
  · rw [literalChar, if_neg hslash, if_neg hquote, if_neg hline]
    exact .itself hquote hslash hline

theorem spelled_literal (cs : List Char) : Spelled cs (cs.flatMap literalChar) := by
  induction cs with
  | nil => exact .nil
  | cons c cs ih => exact .cons (spells_literalChar c) ih

/-- A string is read back from its text. -/
theorem unescape_literal (value : String) :
    unescape (String.ofList (value.toList.flatMap literalChar)) = value := by
  rw [unescape, String.toList_ofList, unescapeChars_of_spelled (spelled_literal value.toList),
    String.ofList_toList]

theorem isString_literal (value : String) : Lexeme.IsString (literal value) :=
  ⟨_, rfl, Lexeme.isStringBody_of_spelled (spelled_literal value.toList)⟩

end Text

namespace Lexical

open Lexeme

variable {l : Lexeme} {kind : Kind} {text : List Char}

/-- What is cut into a token is cut into it wherever it stands. -/
theorem of_next? (hclass : next? text = some l) (hextent : l.extent text = text.length)
    (hkind : l.kind? text = some kind) (hline : kind ≠ .newline) : Lexical kind text where
  not_newline := hline
  next := by
    have hl := mem_classes_of_next? hclass
    rw [← List.append_nil text] at hclass hextent
    have hholds := holds_of_next? hclass (by simpa using hextent)
    obtain ⟨c, cs, rfl⟩ := List.exists_cons_of_ne_nil fun hnil => ne_nil_of_holds hl (hnil ▸ hholds)
    refine ⟨c, cs, rfl, Bool.eq_false_iff.2 fun hblank => ?_⟩
    have hblanks : Holds .blanks [c] := ⟨List.cons_ne_nil _ _, by simpa using hblank⟩
    have hopening := (front_of_holds hl hholds).symm.trans (front_of_holds (by decide) hblanks)
    rcases eq_of_opening .blanks (by decide) l hl hopening with rfl | ⟨hsign, _⟩
    · cases hkind
    · cases hsign
  cut := by
    refine ⟨l, hkind, fun rest hrest => ?_⟩
    rw [← List.append_nil text] at hclass hextent
    refine next?_of_stopsAt hclass (by simpa using hextent) fun c hc => ?_
    have hgap : l ≠ .blanks ∧ l ≠ .comment := by
      constructor <;> (rintro rfl; cases hkind)
    have hstops := stopsAt_space l (mem_classes_of_next? hclass) hgap.1 hgap.2
    rcases hrest c hc with rfl | rfl
    · exact hstops.1
    · exact hstops.2

theorem of_isText (hl : l ∈ classes) (hsign : l.isSign = false) (h : IsText l text)
    (hkind : l.kind? text = some kind) (hline : kind ≠ .newline) : Lexical kind text := by
  have hclass := next?_of_holds hl hsign (holds_of_isText h) []
  rw [List.append_nil] at hclass
  exact of_next? hclass h.2 hkind hline

theorem sign (h : kind.spelling ≠ []) : Lexical kind kind.spelling := by
  have hline : kind ≠ .newline := by
    rintro rfl
    exact h rfl
  have hclass : next? kind.spelling = some (.operator kind.spelling kind) := by
    cases kind <;> first | exact absurd rfl h | rfl
  refine of_next? hclass ?_ rfl hline
  rw [extent, if_pos (List.isPrefixOf_iff_prefix.2 (List.prefix_refl _))]

theorem word (h : IsText .word text) (hkind : kind? .word text = some kind) : Lexical kind text := by
  refine of_isText (by decide) rfl h hkind ?_
  rintro rfl
  rcases kind_of_word hkind with h | h | h <;> cases h

theorem name {name : String} (h : IsName name) : Lexical .identifier name.toList := by
  apply word h.1
  rw [kind?, String.ofList_toList, h.2]
  rfl

theorem number (h : IsText .number text) : Lexical .number text :=
  of_isText (by decide) rfl h rfl (by decide)

theorem string (value : String) : Lexical .string (Text.literal value) := by
  obtain ⟨hclass, hextent⟩ := next?_of_isString (Text.isString_literal value) []
  rw [List.append_nil] at hclass hextent
  exact of_next? hclass hextent rfl (by decide)

end Lexical

namespace Piece

/-- A piece that is a token is cut as it is written. -/
def IsLexical : Piece → Prop
  | .word kind text => Lexical kind text
  | .line _ => True

theorem isLexical_sign {kind : Kind} (h : kind.spelling ≠ []) : (sign kind).IsLexical :=
  Lexical.sign h

theorem parted_text (ps : List Piece) : Parted (text false ps) := by
  cases ps with
  | nil => exact fun c hc => by cases hc
  | cons p ps =>
    cases p with
    | word kind cs => exact fun c hc => .inl (Option.some.inj hc).symm
    | line column => exact fun c hc => .inr (Option.some.inj hc).symm

/-- A line starts with what is no space. -/
theorem head_text {ps : List Piece} (h : ∀ p ∈ ps, p.IsLexical) :
    ∀ c ∈ (text true ps).head?, Lexeme.isBlank c = false := by
  cases ps with
  | nil => exact fun c hc => by cases hc
  | cons p ps =>
    cases p with
    | word kind cs =>
      obtain ⟨c, cs, rfl, hc⟩ := (h _ List.mem_cons_self : Lexical kind cs).next
      intro d hd
      rwa [← Option.some.inj hd]
    | line column =>
      intro d hd
      rw [← Option.some.inj hd]
      rfl

end Piece

namespace Layout

variable {l : Layout} {k : Nat} {p : Piece}

theorem operands_eq_map (l : Layout) (k : Nat) (ts : List Tree) :
    l.operands k ts = ts.map fun t => l.operand k t (l.print k t) := by
  induction ts with
  | nil => rfl
  | cons t ts ih => rw [operands, ih, List.map_cons]

theorem lines_eq_flatMap (l : Layout) (k : Nat) (ts : List Tree) :
    l.lines k ts = ts.flatMap fun t => .line (k * l.width) :: l.print k t := by
  induction ts with
  | nil => rfl
  | cons t ts ih => rw [lines, ih, List.flatMap_cons, List.cons_append]

theorem isLexical_separated {pss : List (List Piece)} (h : ∀ ps ∈ pss, ∀ p ∈ ps, p.IsLexical) :
    ∀ p ∈ Piece.separated pss, p.IsLexical := by
  fun_induction Piece.separated pss with
  | case1 => exact fun p hp => by cases hp
  | case2 ps => exact h ps List.mem_cons_self
  | case3 ps qs rest ih =>
    rw [List.forall_mem_cons] at h
    intro p hp
    rcases List.mem_append.1 hp with hp | hp
    · exact h.1 p hp
    · rcases List.mem_cons.1 hp with rfl | hp
      · exact Piece.isLexical_sign (by decide)
      · exact ih h.2 p hp

theorem isLexical_enclosed {opening closing : Kind} {ps : List Piece} (ho : opening.spelling ≠ [])
    (hc : closing.spelling ≠ []) (h : ∀ p ∈ ps, p.IsLexical) :
    ∀ p ∈ Piece.sign opening :: (ps ++ [.sign closing]), p.IsLexical := by
  intro p hp
  rcases List.mem_cons.1 hp with rfl | hp
  · exact Piece.isLexical_sign ho
  · rcases List.mem_append.1 hp with hp | hp
    · exact h p hp
    · rw [List.mem_singleton.1 hp]
      exact Piece.isLexical_sign hc

theorem isLexical_operand {t : Tree} {ps : List Piece} (h : ∀ p ∈ ps, p.IsLexical) :
    ∀ p ∈ l.operand k t ps, p.IsLexical := by
  unfold operand
  split
  · rw [← List.append_assoc]
    apply isLexical_enclosed (by decide) (by decide)
    intro p hp
    rcases List.mem_append.1 hp with hp | hp
    · exact h p hp
    · unfold ending at hp
      split at hp
      · rw [List.mem_singleton.1 hp]
        trivial
      · cases hp
  · exact h

theorem isLexical_operands {ts : List Tree} (h : ∀ t ∈ ts, ∀ p ∈ l.print k t, p.IsLexical) :
    ∀ p ∈ Piece.separated (l.operands k ts), p.IsLexical := by
  apply isLexical_separated
  intro ps hps
  rw [operands_eq_map] at hps
  obtain ⟨t, ht, rfl⟩ := List.mem_map.1 hps
  exact isLexical_operand (h t ht)

theorem isLexical_parameters {names : List String} (h : ∀ name ∈ names, IsName name) :
    ∀ p ∈ parameters names, p.IsLexical := by
  refine isLexical_enclosed (by decide) (by decide) (isLexical_separated fun ps hps => ?_)
  obtain ⟨name, hname, rfl⟩ := List.mem_map.1 hps
  intro p hp
  rw [List.mem_singleton.1 hp]
  exact Lexical.name (h name hname)

theorem isLexical_lines {ts : List Tree} (h : ∀ t ∈ ts, ∀ p ∈ l.print k t, p.IsLexical) :
    ∀ p ∈ l.lines k ts, p.IsLexical := by
  intro p hp
  rw [lines_eq_flatMap] at hp
  obtain ⟨t, ht, hp⟩ := List.mem_flatMap.1 hp
  rcases List.mem_cons.1 hp with rfl | hp
  · trivial
  · exact h t ht p hp

theorem isLexical_joined {kind : Kind} {ps qs : List Piece} (hkind : kind.spelling ≠ [])
    (hps : ∀ p ∈ ps, p.IsLexical) (hqs : ∀ p ∈ qs, p.IsLexical) :
    ∀ p ∈ ps ++ .sign kind :: qs, p.IsLexical := by
  intro p hp
  rcases List.mem_append.1 hp with hp | hp
  · exact hps p hp
  · rcases List.mem_cons.1 hp with rfl | hp
    · exact Piece.isLexical_sign hkind
    · exact hqs p hp

/-- All tokens of a well-formed tree are cut as they are written. -/
theorem isLexical_print {t : Tree} (h : t.WellFormed l.numeral) (k : Nat) :
    ∀ p ∈ l.print k t, p.IsLexical := by
  induction h generalizing k with
  | @node t hsound hchildren ih =>
    cases t with
    | identifier span name =>
      intro p hp
      rw [List.mem_singleton.1 hp]
      exact Lexical.name hsound
    | number span value =>
      intro p hp
      rw [List.mem_singleton.1 hp]
      exact Lexical.number hsound.1
    | string span value =>
      intro p hp
      rw [List.mem_singleton.1 hp]
      exact Lexical.string value
    | boolean span value =>
      intro p hp
      cases value <;> rw [List.mem_singleton.1 hp] <;>
        exact Lexical.word ⟨by decide, by decide⟩ (by decide)
    | parameters span names => exact hsound.elim
    | function span names body =>
      exact isLexical_joined (by decide) (isLexical_parameters hsound.1)
        (isLexical_lines fun t ht => ih t ht (k + 1))
    | call span callee arguments =>
      intro p hp
      rcases List.mem_append.1 hp with hp | hp
      · exact isLexical_operand (ih callee List.mem_cons_self k) p hp
      · exact isLexical_enclosed (by decide) (by decide)
          (isLexical_operands fun t ht => ih t (List.mem_cons_of_mem _ ht) k) p hp
    | list span items =>
      exact isLexical_enclosed (by decide) (by decide) (isLexical_operands fun t ht => ih t ht k)
    | index span target item =>
      intro p hp
      rcases List.mem_append.1 hp with hp | hp
      · exact isLexical_operand (ih target List.mem_cons_self k) p hp
      · exact isLexical_enclosed (by decide) (by decide)
          (isLexical_operand (ih item (by simp [Tree.children]) k)) p hp
    | binary span operator left right =>
      refine isLexical_joined ?_ (isLexical_operand (ih left List.mem_cons_self k))
        (isLexical_operand (ih right (by simp [Tree.children]) k))
      cases operator <;> decide
    | unary span operator operand =>
      intro p hp
      rcases List.mem_cons.1 hp with rfl | hp
      · exact Piece.isLexical_sign (by cases operator <;> decide)
      · exact isLexical_operand (ih operand List.mem_cons_self k) p hp
    | assign span target value =>
      exact isLexical_joined (by decide) (isLexical_operand (ih target List.mem_cons_self k))
        (isLexical_operand (ih value (by simp [Tree.children]) k))
    | conditional span condition body =>
      exact isLexical_joined (by decide) (isLexical_operand (ih condition List.mem_cons_self k))
        (isLexical_lines fun t ht => ih t (List.mem_cons_of_mem _ ht) (k + 1))

end Layout

end Offside
