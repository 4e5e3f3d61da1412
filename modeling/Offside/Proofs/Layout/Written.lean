import Offside.Proofs.Layout.Lexical

set_option autoImplicit false

/-!
# The tokens of what is written

The tokens that are cut from the text of the pieces are the pieces, and the token behind a line break stands
in the column that the line break asks for.
-/
namespace Offside

/-- The tokens are those of the pieces. -/
inductive Written (source : String) : List Piece → List Token → Prop
  | nil : Written source [] []
  | word {kind : Kind} {text : List Char} {ps : List Piece} {token : Token} {ts : List Token}
      (hline : kind ≠ .newline) (hkind : token.kind = kind)
      (htext : token.text source = String.ofList text) (hrest : Written source ps ts) :
      Written source (.word kind text :: ps) (token :: ts)
  | line {column : Nat} {ps : List Piece} {token : Token} {ts : List Token}
      (hkind : token.kind = .newline) (hcolumn : ∀ t ∈ ts.head?, t.column = column)
      (hrest : Written source ps ts) : Written source (.line column :: ps) (token :: ts)

namespace Position

theorem column_after_replicate (p : Position) (n : Nat) :
    (p.after (List.replicate n ' ')).column = p.column + n := by
  induction n generalizing p with
  | zero => rfl
  | succ n ih =>
    rw [List.replicate_succ]
    change ((p.step ' ').after (List.replicate n ' ')).column = _
    rw [ih]
    change p.column + 1 + n = p.column + (n + 1)
    omega

end Position

variable {source : String} {before text rest : List Char} {kind : Kind} {ps : List Piece}
  {ts : List Token}

/-- A word is cut into the token that starts where the word does. -/
theorem Lexical.scan (h : Lexical kind text) (hrest : Parted rest)
    (hsource : source.toList = before ++ (text ++ rest))
    (hscan : Scan (Position.origin.after (before ++ text)) rest ts) (hwritten : Written source ps ts) :
    ∃ token, Scan (Position.origin.after before) (text ++ rest) (token :: ts) ∧
      Written source (.word kind text :: ps) (token :: ts) ∧
      token.column = (Position.origin.after before).column := by
  obtain ⟨l, hkind, hcut⟩ := h.cut
  obtain ⟨hclass, hextent⟩ := hcut rest hrest
  rw [Position.after_append] at hscan
  refine ⟨_, .cut hclass hextent hkind hscan,
    .word h.not_newline rfl (Token.text_of_span hsource ?_) hwritten, rfl⟩
  rw [Position.after_append]

/-- The spaces behind a line break are passed up to the column. -/
theorem Scan.indented {p : Position} {column : Nat} (h : ∀ c ∈ rest.head?, Lexeme.isBlank c = false)
    (hscan : Scan (p.after (List.replicate column ' ')) rest ts) :
    Scan p (List.replicate column ' ' ++ rest) ts := by
  cases column with
  | zero => exact hscan
  | succ n =>
    refine .skip (Lexeme.next?_blank _) ?_ rfl hscan
    rw [Lexeme.extent_blanks h, List.length_replicate]

theorem Position.column_after_line (p : Position) (column : Nat) :
    ((p.after ['\n']).after (List.replicate column ' ')).column = column := by
  rw [column_after_replicate]
  exact Nat.zero_add column

/-- What is written is cut into the tokens of its pieces. -/
theorem scan_text (h : ∀ p ∈ ps, p.IsLexical) (atStart : Bool)
    (before : List Char) (hsource : source.toList = before ++ Piece.text atStart ps) :
    ∃ ts, Scan (Position.origin.after before) (Piece.text atStart ps) ts ∧ Written source ps ts ∧
      (atStart → ∀ t ∈ ts.head?, t.column = (Position.origin.after before).column) := by
  induction ps generalizing atStart before with
  | nil => exact ⟨[], .done, .nil, fun _ t ht => by cases ht⟩
  | cons p ps ih =>
    rw [List.forall_mem_cons] at h
    cases p with
    | word kind text =>
      have hlexical : Lexical kind text := h.1
      have hword : ∀ before, source.toList = before ++ (text ++ Piece.text false ps) →
          ∃ token ts, Scan (Position.origin.after before) (text ++ Piece.text false ps) (token :: ts) ∧
            Written source (.word kind text :: ps) (token :: ts) ∧
            token.column = (Position.origin.after before).column := by
        intro before hsource
        obtain ⟨ts, hscan, hwritten, _⟩ :=
          ih h.2 false (before ++ text) (hsource.trans (List.append_assoc _ _ _).symm)
        obtain ⟨token, htoken⟩ := hlexical.scan (Piece.parted_text ps) hsource hscan hwritten
        exact ⟨token, ts, htoken⟩
      cases atStart with
      | true =>
        obtain ⟨token, ts, hscan, hwritten, hcolumn⟩ := hword before hsource
        refine ⟨_, hscan, hwritten, fun _ t ht => ?_⟩
        rw [← Option.some.inj ht, hcolumn]
      | false =>
        have hblank : ∀ c ∈ (text ++ Piece.text false ps).head?, Lexeme.isBlank c = false := by
          obtain ⟨c, cs, rfl, hc⟩ := hlexical.next
          intro d hd
          rwa [← Option.some.inj hd]
        obtain ⟨token, ts, hscan, hwritten, _⟩ :=
          hword (before ++ [' ']) (by rw [hsource]; simp [Piece.text])
        rw [Position.after_append] at hscan
        exact ⟨_, @Scan.indented _ _ _ 1 hblank hscan, hwritten, fun hstart => by cases hstart⟩
    | line column =>
      obtain ⟨ts, hscan, hwritten, hcolumn⟩ :=
        ih h.2 true (before ++ '\n' :: List.replicate column ' ') (by rw [hsource]; simp [Piece.text])
      have hplace : Position.origin.after (before ++ '\n' :: List.replicate column ' ') =
          ((Position.origin.after before).after ['\n']).after (List.replicate column ' ') := by
        rw [← Position.after_append, ← Position.after_append]
        rfl
      rw [hplace] at hscan hcolumn
      refine ⟨_, @Scan.cut _ ['\n'] _ _ .newline .newline (Lexeme.next?_newline _) rfl rfl
        (Scan.indented (Piece.head_text h.2) hscan), .line rfl (fun t ht => ?_) hwritten, ?_⟩
      · rw [hcolumn rfl t ht, Position.column_after_line]
      · intro _ t ht
        rw [← Option.some.inj ht]
        rfl

end Offside
