import Offside.Proofs.Scanning

set_option autoImplicit false

/-!
# Tokens in order

The tokens of a source stand one behind the other, and behind a line break on a later line. So a position
at which a token starts names that token, and a token with a line break right before it is the first one of
its line.
-/
namespace Offside

/-- The second token stands behind the first one, and on a later line if that is a line break. -/
structure Token.Precedes (t u : Token) : Prop where
  stop_le : t.span.stop.offset ≤ u.span.start.offset
  line_le : t.line ≤ u.line
  line_lt : t.kind = .newline → t.line < u.line

namespace Position

theorem line_le_step (p : Position) (c : Char) : p.line ≤ (p.step c).line := by
  unfold step
  split
  · exact Nat.le_succ _
  · exact Nat.le_refl _

theorem line_le_after (p : Position) (cs : List Char) : p.line ≤ (p.after cs).line := by
  induction cs generalizing p with
  | nil => exact Nat.le_refl _
  | cons c cs ih => exact Nat.le_trans (p.line_le_step c) (ih (p.step c))

end Position

theorem Text.byteLength_pos {cs : List Char} (h : cs ≠ []) : 0 < byteLength cs := by
  obtain ⟨c, cs, rfl⟩ := List.exists_cons_of_ne_nil h
  exact Nat.lt_of_lt_of_le c.utf8Size_pos (Nat.le_add_right _ _)

namespace Tokens

/-- The tokens have a length and stand one behind the other. -/
structure InOrder (ts : List Token) : Prop where
  start_lt : ∀ t ∈ ts, t.span.start.offset < t.span.stop.offset
  precedes : ts.Pairwise Token.Precedes

/-- The token, and no other one, starts at the position. -/
def At (ts : List Token) (p : Position) (t : Token) : Prop :=
  ∀ u, u ∈ ts ∧ u.span.start = p ↔ u = t

/-- Whatever token starts before this one stands on an earlier line. -/
def FirstOfLine (ts : List Token) (t : Token) : Prop :=
  ∀ u ∈ ts, u.span.start.offset < t.span.start.offset → u.line < t.line

variable {ts as bs : List Token} {t u : Token}

namespace InOrder

theorem start_lt_of_precedes (h : InOrder ts) (ht : t ∈ ts) (hu : t.Precedes u) :
    t.span.start.offset < u.span.start.offset :=
  Nat.lt_of_lt_of_le (h.start_lt t ht) hu.stop_le

theorem nodup (h : InOrder ts) : ts.Nodup := by
  refine h.precedes.imp_of_mem fun ht _ hprecedes he => ?_
  exact Nat.lt_irrefl _ (he ▸ h.start_lt_of_precedes ht hprecedes)

theorem precedes_of_append (h : InOrder (as ++ bs)) (ht : t ∈ as) (hu : u ∈ bs) : t.Precedes u :=
  (List.pairwise_append.1 h.precedes).2.2 t ht u hu

theorem precedes_of_mem_front (h : InOrder (as ++ t :: bs)) (hu : u ∈ as) : u.Precedes t :=
  h.precedes_of_append hu List.mem_cons_self

theorem precedes_of_mem_rest (h : InOrder (as ++ t :: bs)) (hu : u ∈ bs) : t.Precedes u := by
  rw [List.append_cons] at h
  exact h.precedes_of_append (List.mem_append_right _ List.mem_cons_self) hu

/-- A token is the given one or stands before or behind it. -/
theorem cases (h : InOrder (as ++ t :: bs)) (hu : u ∈ as ++ t :: bs) :
    u ∈ as ∧ u.Precedes t ∨ u = t ∨ u ∈ bs ∧ t.Precedes u := by
  rcases List.mem_append.1 hu with has | hbs
  · exact .inl ⟨has, h.precedes_of_mem_front has⟩
  · exact .inr ((List.mem_cons.1 hbs).imp_right fun hbs => ⟨hbs, h.precedes_of_mem_rest hbs⟩)

theorem at_start (h : InOrder ts) (ht : t ∈ ts) : At ts t.span.start t := by
  intro u
  constructor
  · rintro ⟨hu, hstart⟩
    obtain ⟨as, bs, rfl⟩ := List.append_of_mem ht
    rcases h.cases hu with ⟨_, hlt⟩ | heq | ⟨_, hlt⟩
    · have := h.start_lt_of_precedes hu hlt
      rw [hstart] at this
      exact absurd this (Nat.lt_irrefl _)
    · exact heq
    · have := h.start_lt_of_precedes ht hlt
      rw [hstart] at this
      exact absurd this (Nat.lt_irrefl _)
  · rintro rfl
    exact ⟨ht, rfl⟩

/-- What starts before a token stands before it. -/
theorem mem_of_start_lt (h : InOrder (as ++ t :: bs)) (hu : u ∈ as ++ t :: bs)
    (hstart : u.span.start.offset < t.span.start.offset) : u ∈ as := by
  rcases h.cases hu with ⟨has, _⟩ | rfl | ⟨_, hlt⟩
  · exact has
  · exact absurd hstart (Nat.lt_irrefl _)
  · have := h.start_lt_of_precedes (List.mem_append_right _ List.mem_cons_self) hlt
    omega

/-- A token without one before it, or with a line break right before it, is the first one of its line. -/
theorem firstOfLine (h : InOrder (as.reverse ++ t :: bs)) (has : as.head?.all (·.kind = .newline)) :
    FirstOfLine (as.reverse ++ t :: bs) t := by
  intro u hu hstart
  have hmem := List.mem_reverse.1 (h.mem_of_start_lt hu hstart)
  cases as with
  | nil => cases hmem
  | cons a as =>
    have ha : a.kind = .newline := by simpa using has
    have hat : a.Precedes t := h.precedes_of_mem_front (List.mem_reverse.2 List.mem_cons_self)
    rcases List.mem_cons.1 hmem with rfl | hmem
    · exact hat.line_lt ha
    · rw [List.reverse_cons, ← List.append_cons] at h
      have hua : u.Precedes a := h.precedes_of_mem_front (List.mem_reverse.2 hmem)
      exact Nat.lt_of_le_of_lt hua.line_le (hat.line_lt ha)

end InOrder

/-- The tokens that a text is cut into are in order, behind the place where the text starts. -/
theorem inOrder_of_scan {p : Position} {cs : List Char} (h : Scan p cs ts) :
    InOrder ts ∧ ∀ t ∈ ts, p.offset ≤ t.span.start.offset ∧ p.line ≤ t.line := by
  induction h with
  | done => exact ⟨⟨nofun, .nil⟩, nofun⟩
  | @skip p text rest ts l hclass hextent hkind _ ih =>
    refine ⟨ih.1, fun t ht => ?_⟩
    have hoffset := p.offset_after text
    have hline := p.line_le_after text
    have hafter := ih.2 t ht
    omega
  | @cut p text rest ts l kind hclass hextent hkind _ ih =>
    have hoffset := p.offset_after text
    have hline := p.line_le_after text
    have hpos := Lexeme.extent_pos_of_next? _ _ hclass
    have hne : text ≠ [] := List.length_pos_iff.1 (hextent ▸ hpos)
    refine ⟨⟨List.forall_mem_cons.2 ⟨?_, ih.1.start_lt⟩, .cons (fun u hu => ?_) ih.1.precedes⟩,
      List.forall_mem_cons.2 ⟨⟨Nat.le_refl _, Nat.le_refl _⟩, fun t ht => ?_⟩⟩
    · change p.offset < (p.after text).offset
      have := Text.byteLength_pos hne
      omega
    · obtain ⟨hstop, hlater⟩ := ih.2 u hu
      refine ⟨hstop, Nat.le_trans hline hlater, ?_⟩
      rintro rfl
      obtain rfl : l = .newline := Lexeme.eq_of_kind? (Lexeme.mem_classes_of_next? hclass) hkind
      obtain rfl : text = ['\n'] := Lexeme.measures_newline.holds hextent hne
      exact hlater
    · have hafter := ih.2 t ht
      omega

/-- The tokens of a source are in order. -/
theorem inOrder_of_ofSource {source : String} (h : ofSource source = .ok ts) : InOrder ts :=
  (inOrder_of_scan (scan_eq_ok_iff.1 h)).1

end Tokens

end Offside
