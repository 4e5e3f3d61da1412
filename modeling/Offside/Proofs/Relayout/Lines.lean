import Mathlib.Data.List.Destutter
import Mathlib.Data.List.TakeWhile
import Mathlib.Order.Monotone.Basic
import Offside.Token

set_option autoImplicit false

/-!
# Two layouts of the same lines

Two texts have the same lines if their tokens have the same kinds and texts once each run of line breaks is
taken for one, and the columns at which lines start are those of the other text under a function that keeps
their order and the steps of indentation.
-/
namespace Offside

/-- Two source texts, and where the columns of the first are in the second. -/
structure Relayout where
  source : String
  source' : String
  column : Nat → Nat
  /-- The columns between a block and the one around it, in each of the texts. -/
  width : Nat
  width' : Nat
  strictMono : StrictMono column
  column_mul : ∀ k, column (k * width) = k * width'

/-- The tokens with one line break, the first one, in place of each run of them. -/
def collapsed (tokens : List Token) : List Token :=
  tokens.destutter fun k l => k.kind = .newline → l.kind ≠ .newline

/-- The tokens without line breaks at the start, and with one in place of each run of them. -/
def normalised (tokens : List Token) : List Token :=
  collapsed (tokens.dropWhile (·.kind = .newline))

/-- The columns of the tokens that start a line, the first token among them if a line starts there. -/
def lineStarts (start : Bool) : List Token → List Nat
  | [] => []
  | k :: ks =>
    if start then k.column :: lineStarts (k.kind = .newline) ks else lineStarts (k.kind = .newline) ks

theorem collapsed_cons_of_newline {k : Token} (hk : k.kind = .newline) (ks : List Token) :
    collapsed (k :: ks) = k :: collapsed (ks.dropWhile (·.kind = .newline)) := by
  unfold collapsed
  rw [List.destutter_cons']
  induction ks with
  | nil => rfl
  | cons l ks ih =>
    by_cases hl : l.kind = .newline
    · rw [List.destutter'_cons_neg _ (by simp [hk, hl]), ih, List.dropWhile_cons_of_pos (by simpa using hl)]
    · rw [List.destutter'_cons_pos _ (by simp [hl]), List.dropWhile_cons_of_neg (by simpa using hl)]
      rfl

theorem collapsed_cons_of_ne_newline {k : Token} (hk : k.kind ≠ .newline) (ks : List Token) :
    collapsed (k :: ks) = k :: collapsed ks := by
  unfold collapsed
  rw [List.destutter_cons']
  cases ks with
  | nil => rfl
  | cons l ks =>
    rw [List.destutter'_cons_pos _ (by simp [hk])]
    rfl

theorem exists_collapsed_cons (k : Token) (ks : List Token) : ∃ ls, collapsed (k :: ks) = k :: ls := by
  by_cases hk : k.kind = .newline
  · exact ⟨_, collapsed_cons_of_newline hk ks⟩
  · exact ⟨_, collapsed_cons_of_ne_newline hk ks⟩

namespace Relayout

/-- The tokens have the same kind and text. -/
def Alike (c : Relayout) (k k' : Token) : Prop :=
  k'.kind = k.kind ∧ k'.text c.source' = k.text c.source

instance (c : Relayout) (k k' : Token) : Decidable (c.Alike k k') := inferInstanceAs (Decidable (_ ∧ _))

/-- The tokens of the two texts have the same lines. -/
structure Relays (c : Relayout) (tokens tokens' : List Token) : Prop where
  alike : List.Forall₂ c.Alike (normalised tokens) (normalised tokens')
  columns : lineStarts true (normalised tokens') =
    (lineStarts true (normalised tokens)).map c.column

instance (c : Relayout) (tokens tokens' : List Token) : Decidable (c.Relays tokens tokens') :=
  decidable_of_iff
    (List.Forall₂ c.Alike (normalised tokens) (normalised tokens') ∧
      lineStarts true (normalised tokens') = (lineStarts true (normalised tokens)).map c.column)
    ⟨fun h => ⟨h.1, h.2⟩, fun h => ⟨h.alike, h.columns⟩⟩

/-- Two lists of tokens have the same lines, token by token and line break by line break. Where a line
starts there is no line break in either. -/
inductive Lines (c : Relayout) : Bool → List Token → List Token → Prop
  | nil {start : Bool} : Lines c start [] []
  | token {start : Bool} {k k' : Token} {ks ks' : List Token} (hkind : k.kind ≠ .newline)
      (halike : c.Alike k k') (hcolumn : start → k'.column = c.column k.column)
      (h : Lines c false ks ks') : Lines c start (k :: ks) (k' :: ks')
  | lineBreak {k k' : Token} {ls ls' ks ks' : List Token} (hkind : k.kind = .newline)
      (halike : c.Alike k k') (hls : ∀ l ∈ ls, l.kind = .newline)
      (hls' : ∀ l ∈ ls', l.kind = .newline) (h : Lines c true ks ks') :
      Lines c false (k :: (ls ++ ks)) (k' :: (ls' ++ ks'))

/-- No line break is next. -/
def Starts (ts : List Token) : Prop := ∀ k ∈ ts.head?, k.kind ≠ .newline

theorem starts_dropWhile (ts : List Token) : Starts (ts.dropWhile (·.kind = .newline)) := by
  intro k hk
  have hhead := List.head?_dropWhile_not (·.kind = .newline) ts
  rw [hk] at hhead
  simpa using hhead

variable {c : Relayout}

/-- A list of tokens without line breaks at its start that look the same when runs of line breaks are
collapsed has the same lines. -/
theorem lines_of_collapsed {start : Bool} {ts ts' : List Token}
    (hstart : start → Starts ts ∧ Starts ts')
    (halike : List.Forall₂ c.Alike (collapsed ts) (collapsed ts'))
    (hcolumns : lineStarts start (collapsed ts') = (lineStarts start (collapsed ts)).map c.column) :
    c.Lines start ts ts' := by
  induction hn : ts.length using Nat.strong_induction_on generalizing start ts ts' with
  | _ n ih =>
    subst hn
    match ts, ts' with
    | [], [] => exact .nil
    | [], k' :: ks' =>
      obtain ⟨ls, hls⟩ := exists_collapsed_cons k' ks'
      rw [hls] at halike
      cases halike
    | k :: ks, [] =>
      obtain ⟨ls, hls⟩ := exists_collapsed_cons k ks
      rw [hls] at halike
      cases halike
    | k :: ks, k' :: ks' =>
      have hhead : c.Alike k k' := by
        obtain ⟨ls, hls⟩ := exists_collapsed_cons k ks
        obtain ⟨ls', hls'⟩ := exists_collapsed_cons k' ks'
        rw [hls, hls'] at halike
        exact (List.forall₂_cons.1 halike).1
      by_cases hk : k.kind = .newline
      · have hk' : k'.kind = .newline := hhead.1.trans hk
        have hend : start = false := by
          cases start with
          | false => rfl
          | true => exact absurd hk ((hstart rfl).1 k rfl)
        subst hend
        rw [collapsed_cons_of_newline hk, collapsed_cons_of_newline hk'] at halike hcolumns
        have hrest : c.Lines true (ks.dropWhile (·.kind = .newline))
            (ks'.dropWhile (·.kind = .newline)) := ih (ks.dropWhile (·.kind = .newline)).length
          (Nat.lt_succ_of_le (List.dropWhile_sublist _).length_le)
          (fun _ => ⟨starts_dropWhile ks, starts_dropWhile ks'⟩) (List.forall₂_cons.1 halike).2
          (by simpa [lineStarts, hk, hk'] using hcolumns) rfl
        have hbreaks : ∀ ts : List Token, ∀ l ∈ ts.takeWhile (·.kind = .newline), l.kind = .newline :=
          fun ts l hl => by simpa using List.mem_takeWhile_imp hl
        have hlines := Lines.lineBreak hk hhead (hbreaks ks) (hbreaks ks') hrest
        rwa [List.takeWhile_append_dropWhile, List.takeWhile_append_dropWhile] at hlines
      · have hk' : k'.kind ≠ .newline := by rwa [hhead.1]
        rw [collapsed_cons_of_ne_newline hk, collapsed_cons_of_ne_newline hk'] at halike hcolumns
        have hrest := (List.forall₂_cons.1 halike).2
        cases start with
        | false =>
          have hlater : lineStarts false (collapsed ks') =
              (lineStarts false (collapsed ks)).map c.column := by
            simpa [lineStarts, hk, hk'] using hcolumns
          exact .token hk hhead nofun (ih ks.length (Nat.lt_succ_self _) nofun hrest hlater rfl)
        | true =>
          have hcolumns' : k'.column :: lineStarts false (collapsed ks') =
              c.column k.column :: (lineStarts false (collapsed ks)).map c.column := by
            simpa [lineStarts, hk, hk'] using hcolumns
          obtain ⟨hcolumn, hlater⟩ := List.cons.inj hcolumns'
          exact .token hk hhead (fun _ => hcolumn)
            (ih ks.length (Nat.lt_succ_self _) nofun hrest hlater rfl)

/-- Texts that look the same but for their layout have the same lines. -/
theorem Relays.lines {tokens tokens' : List Token} (h : c.Relays tokens tokens') :
    c.Lines true (tokens.dropWhile (·.kind = .newline)) (tokens'.dropWhile (·.kind = .newline)) :=
  lines_of_collapsed (fun _ => ⟨starts_dropWhile _, starts_dropWhile _⟩) h.alike h.columns

end Relayout

end Offside
