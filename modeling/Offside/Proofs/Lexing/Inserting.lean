import Offside.Proofs.Lexing
import Offside.Proofs.Lexing.Seams

set_option autoImplicit false

/-!
# Inserting a character between tokens

On one line what stands up to a token is cut alike, whatever comes behind the seam, if that starts with a
character that no text goes on with. So such a character can be inserted before a token or behind one: it
is a token of its own, and the others keep their kinds and their texts.
-/
namespace Offside

/-- The text with one more character at the byte offset. -/
def Text.insert? (c : Char) (offset : Nat) (cs : List Char) : Option (List Char) := do
  let before ← takeBytes? offset cs
  let behind ← dropBytes? offset cs
  return before ++ c :: behind

theorem Text.insert?_append (c : Char) (before behind : List Char) :
    insert? c (byteLength before) (before ++ behind) = some (before ++ c :: behind) := by
  rw [insert?, takeBytes?_append, dropBytes?_append]
  rfl

/-- The character ends every text but a comment, and it is a token of the kind wherever it stands. -/
structure Lexeme.Separates (c : Char) (kind : Kind) : Prop where
  divides : Divides c
  next : ∀ rest, next? (c :: rest) = some (.operator [c] kind)

theorem Lexeme.separates_paren : Separates '(' .openParen ∧ Separates ')' .closeParen :=
  ⟨⟨divides_paren.1, fun _ => rfl⟩, ⟨divides_paren.2, fun _ => rfl⟩⟩

theorem Lexeme.Separates.ne_newline {c : Char} {kind : Kind} (h : Separates c kind) : c ≠ '\n' := by
  rintro rfl
  cases h.next []

/-- On one line a comment has nothing behind it. -/
theorem Lexeme.ne_comment_of_next? {l : Lexeme} {text rest : List Char}
    (hclass : next? (text ++ rest) = some l) (hextent : l.extent (text ++ rest) = text.length)
    (hrest : rest ≠ []) (hline : '\n' ∉ rest) : l ≠ .comment := by
  rintro rfl
  obtain ⟨c, cs, rfl⟩ := List.exists_cons_of_ne_nil hrest
  have hholds : IsComment text := holds_of_next? hclass hextent
  have hc : c = '\n' := (Segment.longest_of_next? hclass hextent).comment hholds c rfl
  exact hline (hc ▸ List.mem_cons_self)

namespace Scan

variable {p : Position} {cs text rest : List Char} {as bs ts : List Token} {t : Token} {l : Lexeme}

/-- The text is cut into the tokens, alone and before whatever starts with a character that divides. -/
structure Leads (p : Position) (text : List Char) (ts : List Token) : Prop where
  alone : Scan p text ts
  before : ∀ c, Lexeme.Divides c → ∀ behind us, Scan (p.after text) (c :: behind) us →
    Scan p (text ++ c :: behind) (ts ++ us)

namespace Leads

theorem nil : Leads p [] [] := ⟨.done, fun _ _ _ _ h => h⟩

/-- A text of a class leads on, with the tokens it makes. -/
theorem piece {mid : List Char} (out : List Token)
    (hclass : Lexeme.next? (text ++ (mid ++ rest)) = some l)
    (hextent : l.extent (text ++ (mid ++ rest)) = text.length) (hcomment : l ≠ .comment)
    (hout : ∀ cs us, Lexeme.next? (text ++ cs) = some l → l.extent (text ++ cs) = text.length →
      Scan (p.after text) cs us → Scan p (text ++ cs) (out ++ us))
    (h : Leads (p.after text) mid ts) : Leads p (text ++ mid) (out ++ ts) := by
  constructor
  · obtain ⟨hclass, hextent⟩ := Lexeme.next?_of_append hclass hextent
    exact hout mid ts hclass hextent h.alone
  · intro c hc behind us hus
    obtain ⟨hclass, hextent⟩ := Lexeme.next?_of_divides hclass hextent hcomment hc behind
    rw [Position.after_append] at hus
    rw [List.append_assoc, List.append_assoc]
    exact hout _ _ hclass hextent (h.before c hc behind us hus)

theorem skip {mid : List Char} (hclass : Lexeme.next? (text ++ (mid ++ rest)) = some l)
    (hextent : l.extent (text ++ (mid ++ rest)) = text.length) (hkind : l.kind? text = none)
    (hcomment : l ≠ .comment) (h : Leads (p.after text) mid ts) : Leads p (text ++ mid) ts :=
  h.piece [] hclass hextent hcomment fun _ _ hclass hextent => .skip hclass hextent hkind

theorem cut {mid : List Char} {kind : Kind} (hclass : Lexeme.next? (text ++ (mid ++ rest)) = some l)
    (hextent : l.extent (text ++ (mid ++ rest)) = text.length) (hkind : l.kind? text = some kind)
    (h : Leads (p.after text) mid ts) :
    Leads p (text ++ mid) (⟨kind, ⟨p, p.after text⟩⟩ :: ts) := by
  have hcomment : l ≠ .comment := by
    rintro rfl
    cases hkind
  exact h.piece [_] hclass hextent hcomment fun _ _ hclass hextent => .cut hclass hextent hkind

end Leads

theorem ne_nil (h : Scan p cs ts) (ht : t ∈ ts) : cs ≠ [] := by
  rintro rfl
  obtain ⟨before, text, behind, l, hcs, _, hclass, _⟩ := h.mem ht
  rw [(List.append_eq_nil_iff.1 hcs.symm).2] at hclass
  cases hclass

/-- A gap before a token on one line is no comment. -/
theorem ne_comment (hclass : Lexeme.next? (text ++ rest) = some l)
    (hextent : l.extent (text ++ rest) = text.length) (hcs : '\n' ∉ text ++ rest) (h : Scan p rest ts)
    (ht : t ∈ ts) : l ≠ .comment :=
  Lexeme.ne_comment_of_next? hclass hextent (h.ne_nil ht) fun hmem => hcs (List.mem_append_right _ hmem)

/-- On one line the text up to the start of a token leads to it. -/
theorem from_token (h : Scan p cs (as ++ t :: bs)) (hcs : '\n' ∉ cs) :
    ∃ before rest, cs = before ++ rest ∧ t.span.start = p.after before ∧ Leads p before as ∧
      Scan (p.after before) rest (t :: bs) := by
  generalize hts : as ++ t :: bs = ts at h
  induction h generalizing as with
  | done => simp at hts
  | @skip p text rest ts l hclass hextent hkind hrest ih =>
    have hcomment := ne_comment hclass hextent hcs hrest (hts ▸ List.mem_append_right _ List.mem_cons_self)
    obtain ⟨before, rest, rfl, hstart, hleads, hscan⟩ :=
      ih (fun hmem => hcs (List.mem_append_right _ hmem)) hts
    refine ⟨text ++ before, rest, (List.append_assoc _ _ _).symm, ?_,
      hleads.skip hclass hextent hkind hcomment, ?_⟩ <;> rwa [Position.after_append]
  | @cut p text rest ts l kind hclass hextent hkind hrest ih =>
    cases as with
    | nil =>
      obtain ⟨rfl, rfl⟩ := List.cons.inj hts
      exact ⟨[], _, rfl, rfl, .nil, .cut hclass hextent hkind hrest⟩
    | cons a as =>
      obtain ⟨rfl, htail⟩ := List.cons.inj hts
      obtain ⟨before, rest, rfl, hstart, hleads, hscan⟩ :=
        ih (fun hmem => hcs (List.mem_append_right _ hmem)) htail
      refine ⟨text ++ before, rest, (List.append_assoc _ _ _).symm, ?_,
        hleads.cut hclass hextent hkind, ?_⟩ <;> rwa [Position.after_append]

/-- On one line the text up to the end of a token leads to what stands behind it. -/
theorem up_to_token (h : Scan p cs (as ++ t :: bs)) (hcs : '\n' ∉ cs) :
    ∃ text behind, cs = text ++ behind ∧ t.span.stop = p.after text ∧ Leads p text (as ++ [t]) ∧
      Scan (p.after text) behind bs := by
  generalize hts : as ++ t :: bs = ts at h
  induction h generalizing as with
  | done => simp at hts
  | @skip p text rest ts l hclass hextent hkind hrest ih =>
    have hcomment := ne_comment hclass hextent hcs hrest (hts ▸ List.mem_append_right _ List.mem_cons_self)
    obtain ⟨mid, behind, rfl, hstop, hleads, hscan⟩ :=
      ih (fun hmem => hcs (List.mem_append_right _ hmem)) hts
    refine ⟨text ++ mid, behind, (List.append_assoc _ _ _).symm, ?_,
      hleads.skip hclass hextent hkind hcomment, ?_⟩ <;> rwa [Position.after_append]
  | @cut p text rest ts l kind hclass hextent hkind hrest ih =>
    cases as with
    | nil =>
      obtain ⟨rfl, rfl⟩ := List.cons.inj hts
      have hleads : Leads p (text ++ []) _ := Leads.nil.cut hclass hextent hkind
      rw [List.append_nil] at hleads
      exact ⟨text, rest, rfl, rfl, hleads, hrest⟩
    | cons a as =>
      obtain ⟨rfl, htail⟩ := List.cons.inj hts
      obtain ⟨mid, behind, rfl, hstop, hleads, hscan⟩ :=
        ih (fun hmem => hcs (List.mem_append_right _ hmem)) htail
      refine ⟨text ++ mid, behind, (List.append_assoc _ _ _).symm, ?_,
        hleads.cut hclass hextent hkind, ?_⟩ <;> rwa [Position.after_append]

variable {source source' : String} {before before' behind behind' : List Char}

/-- A text that stands at another place is cut into the same there. -/
theorem elsewhere (h : Scan p cs ts) (hp : p = Position.origin.after before)
    (hsource : source.toList = before ++ (cs ++ behind))
    (hsource' : source'.toList = before' ++ (cs ++ behind')) :
    ∃ us, Scan (Position.origin.after before') cs us ∧
      us.map (Token.word source') = ts.map (Token.word source) := by
  induction h generalizing before before' with
  | done => exact ⟨[], .done, rfl⟩
  | @skip p text rest ts l hclass hextent hkind _ ih =>
    obtain ⟨us, hus, hwords⟩ := @ih (before ++ text) (before' ++ text)
      (by rw [hp, Position.after_append]) (by simpa using hsource) (by simpa using hsource')
    rw [Position.after_append] at hus
    exact ⟨us, .skip hclass hextent hkind hus, hwords⟩
  | @cut p text rest ts l kind hclass hextent hkind _ ih =>
    obtain ⟨us, hus, hwords⟩ := @ih (before ++ text) (before' ++ text)
      (by rw [hp, Position.after_append]) (by simpa using hsource) (by simpa using hsource')
    rw [Position.after_append] at hus
    rw [List.append_assoc] at hsource hsource'
    refine ⟨_, .cut hclass hextent hkind hus, ?_⟩
    rw [List.map_cons, List.map_cons, hwords, Token.word, Token.word,
      Token.text_of_span hsource' (by rw [Position.after_append]),
      Token.text_of_span hsource (by rw [hp, Position.after_append])]

/-- The second text is one line, cut into the tokens `as`, the token `u` and what the tokens `bs` of the
first one are there. -/
structure Inserted (source text : String) (as bs : List Token) (u : Token) (us : List Token) : Prop where
  scan : Scan .origin text.toList (as ++ u :: us)
  front : ∀ t ∈ as, t.word text = t.word source
  rest : us.map (Token.word text) = bs.map (Token.word source)
  newline : '\n' ∉ text.toList

variable {c : Char} {kind : Kind}

/-- A character that separates is a token where it is inserted. The tokens before it stay as they are. -/
theorem Leads.insert (hleads : Leads .origin before as)
    (hscan : Scan (Position.origin.after before) behind bs) (hsource : source.toList = before ++ behind)
    (hline : '\n' ∉ source.toList) (hc : Lexeme.Separates c kind) :
    ∃ text u us, Text.insert? c (Position.origin.after before).offset source.toList = some text.toList ∧
      Inserted source text as bs u us ∧ u.kind = kind ∧ u.span.start = Position.origin.after before := by
  obtain ⟨text, htext⟩ : ∃ text : String, text.toList = before ++ c :: behind :=
    ⟨_, String.toList_ofList⟩
  have hthere : source.toList = before ++ (behind ++ []) := by simpa using hsource
  have hthere' : text.toList = (before ++ [c]) ++ (behind ++ []) := by simpa using htext
  obtain ⟨us, hus, hwords⟩ := hscan.elsewhere rfl hthere hthere'
  rw [Position.after_append] at hus
  have hcut : Scan (Position.origin.after before) ([c] ++ behind) _ :=
    .cut (hc.next behind) (by simp [Lexeme.extent]) rfl hus
  have hwhole := hleads.before c hc.divides behind _ hcut
  rw [← htext] at hwhole
  refine ⟨text, _, us, ?_, ⟨hwhole, fun t ht => ?_, hwords, ?_⟩, rfl, rfl⟩
  · have hoffset : (Position.origin.after before).offset = Text.byteLength before := by
      rw [Position.offset_after]
      exact Nat.zero_add _
    rw [hoffset, hsource, Text.insert?_append, htext]
  · obtain ⟨front, _, rest, _, rfl, hspan, _⟩ := hleads.alone.mem ht
    rw [List.append_assoc, List.append_assoc] at hsource htext
    rw [Token.word, Token.word, Token.text_of_span htext hspan, Token.text_of_span hsource hspan]
  · rw [htext]
    rw [hsource] at hline
    simpa [hc.ne_newline.symm] using hline

/-- On one line such a character can be inserted before any token. -/
theorem insert_before (h : Scan .origin source.toList (as ++ t :: bs)) (hline : '\n' ∉ source.toList)
    (hc : Lexeme.Separates c kind) :
    ∃ text u us, Text.insert? c t.span.start.offset source.toList = some text.toList ∧
      Inserted source text as (t :: bs) u us ∧ u.kind = kind ∧ u.span.start = t.span.start := by
  obtain ⟨before, rest, hsource, hstart, hleads, hrest⟩ := h.from_token hline
  rw [hstart]
  exact hleads.insert hrest hsource hline hc

/-- On one line such a character can be inserted behind any token. -/
theorem insert_behind (h : Scan .origin source.toList (as ++ t :: bs)) (hline : '\n' ∉ source.toList)
    (hc : Lexeme.Separates c kind) :
    ∃ text u us, Text.insert? c t.span.stop.offset source.toList = some text.toList ∧
      Inserted source text (as ++ [t]) bs u us ∧ u.kind = kind := by
  obtain ⟨inside, behind, hsource, hstop, hleads, hrest⟩ := h.up_to_token hline
  obtain ⟨text, u, us, htext, hinserted, hkind, _⟩ := hleads.insert hrest hsource hline hc
  rw [hstop]
  exact ⟨text, u, us, htext, hinserted, hkind⟩

end Scan

end Offside
