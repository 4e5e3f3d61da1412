import Offside.Proofs.Lexing.Inserting
import Offside.Proofs.Lexing.Order
import Offside.Proofs.Spans

set_option autoImplicit false

/-!
# Scanning an excerpt

What is cut out of a line from the start of one token to the end of another is scanned into the tokens that
stood there, with the same texts. Only their positions are counted from the start of the excerpt.
-/
namespace Offside

/-- The position that is `p` when counted from `start` on, where `p` is on the first line. -/
def Position.shift (start p : Position) : Position :=
  ⟨start.offset + p.offset, p.line, start.column + p.column⟩

def Span.shift (start : Position) (span : Span) : Span :=
  ⟨start.shift span.start, start.shift span.stop⟩

def Token.shift (start : Position) (t : Token) : Token := ⟨t.kind, t.span.shift start⟩

/-- The part of the source that the span delimits. -/
def Span.excerpt (source : String) (span : Span) : String :=
  String.ofList ((Text.between? span.start.offset span.stop.offset source.toList).getD [])

namespace Position

theorem shift_step (start p : Position) {c : Char} (hc : c ≠ '\n') :
    start.shift (p.step c) = (start.shift p).step c := by
  simp [shift, step, hc, Nat.add_assoc]

theorem shift_after (start p : Position) {cs : List Char} (hcs : '\n' ∉ cs) :
    start.shift (p.after cs) = (start.shift p).after cs := by
  induction cs generalizing p with
  | nil => rfl
  | cons c cs ih =>
    have hc : c ≠ '\n' := fun he => hcs (he ▸ List.mem_cons_self)
    have hafter := ih (p.step c) fun hmem => hcs (List.mem_cons_of_mem _ hmem)
    rwa [shift_step _ _ hc] at hafter

theorem line_after (p : Position) {cs : List Char} (hcs : '\n' ∉ cs) : (p.after cs).line = p.line := by
  induction cs generalizing p with
  | nil => rfl
  | cons c cs ih =>
    have hc : c ≠ '\n' := fun he => hcs (he ▸ List.mem_cons_self)
    have hstep : (p.step c).line = p.line := by simp [step, hc]
    exact (ih (p.step c) fun hmem => hcs (List.mem_cons_of_mem _ hmem)).trans hstep

theorem shift_origin {p : Position} (hline : p.line = 1) : p.shift origin = p := by
  obtain ⟨offset, line, column⟩ := p
  obtain rfl : line = 1 := hline
  rfl

end Position

/-- On one line the same tokens are cut wherever the text stands. -/
theorem Scan.unshift {start p q : Position} {cs : List Char} {ts : List Token} (h : Scan q cs ts)
    (hq : q = start.shift p) (hcs : '\n' ∉ cs) :
    ∃ us, Scan p cs us ∧ ts = us.map (Token.shift start) := by
  have hmap := @Tokens.scan_map start.shift p cs fun as bs he =>
    Position.shift_after start p fun hmem => hcs (he ▸ List.mem_append_left bs hmem)
  rw [← hq, Tokens.scan_of_run h] at hmap
  cases hscan : Tokens.scan p cs with
  | error d =>
    rw [hscan] at hmap
    cases hmap
  | ok us =>
    rw [hscan] at hmap
    exact ⟨us, Tokens.run_of_scan hscan, Except.ok.inj hmap⟩

theorem Span.excerpt_of_after {source : String} {span : Span} {before text behind : List Char}
    (hsource : source.toList = before ++ (text ++ behind))
    (hspan : span = ⟨Position.origin.after before, Position.origin.after (before ++ text)⟩) :
    span.excerpt source = String.ofList text :=
  Token.text_of_span (t := ⟨.string, span⟩) hsource hspan

/-- Where no token is a line break, the span goes from the start of the first to the end of the last one. -/
theorem Delimits.exists_ends {ks : List Token} {span : Span} (h : Delimits ks span)
    (hline : ∀ k ∈ ks, k.kind ≠ .newline) :
    ∃ first last as bs, ks = first :: bs ∧ ks = as ++ [last] ∧
      span = ⟨first.span.start, last.span.stop⟩ := by
  obtain ⟨first, last, hfirst, hlast, rfl⟩ := h
  obtain ⟨as, ls, hks, _, hls⟩ := exists_of_lastOf? hlast
  obtain ⟨_, ls', bs, hks', hls'⟩ := List.find?_eq_some_iff_append.1 hfirst
  have hnil : ls = [] := List.eq_nil_iff_forall_not_mem.2 fun l hl =>
    hline l (by simp [hks, hl]) (hls l hl)
  have hnil' : ls' = [] := List.eq_nil_iff_forall_not_mem.2 fun l hl =>
    hline l (by simp [hks', hl]) (by simpa using hls' l hl)
  subst hnil hnil'
  exact ⟨first, last, as, bs, hks', hks, rfl⟩

/-- A token of a part of one line has the text that it has in the whole line. -/
theorem Token.text_shift {source : String} {before text behind : List Char} {us : List Token} {u : Token}
    (hsource : source.toList = before ++ (text ++ behind)) (hbefore : '\n' ∉ before) (htext : '\n' ∉ text)
    (hus : Scan .origin text us) (hu : u ∈ us) :
    u.text (String.ofList text) = (u.shift (Position.origin.after before)).text source := by
  obtain ⟨b, x, e, l, hcut, huspan, _⟩ := hus.mem hu
  have hbx : '\n' ∉ b ++ x := fun hmem =>
    htext (hcut ▸ List.append_assoc b x e ▸ List.mem_append_left e hmem)
  have hb : '\n' ∉ b := fun hmem => hbx (List.mem_append_left x hmem)
  have hshift : Position.origin.after before = (Position.origin.after before).shift .origin :=
    (Position.shift_origin (Position.line_after _ hbefore)).symm
  have hx : u.text (String.ofList text) = String.ofList x :=
    Token.text_of_span (by rw [String.toList_ofList, hcut]) huspan
  have hthere : source.toList = (before ++ b) ++ (x ++ (e ++ behind)) := by
    rw [hsource, hcut]
    simp
  have hspan : (u.shift (Position.origin.after before)).span =
      ⟨Position.origin.after (before ++ b), Position.origin.after (before ++ b ++ x)⟩ := by
    rw [Token.shift, Span.shift, huspan, Position.shift_after _ _ hb, Position.shift_after _ _ hbx,
      ← hshift, ← Position.after_append, ← Position.after_append, List.append_assoc]
  rw [hx, Token.text_of_span hthere hspan]

namespace Tokens

variable {source : String} {ks tokens : List Token} {span : Span}

/-- What the span of tokens on one line delimits is scanned into these tokens. -/
theorem ofSource_of_delimits (hsource : '\n' ∉ source.toList) (htokens : ofSource source = .ok tokens)
    (hpart : ks <:+: tokens) (hspan : Delimits ks span) :
    ∃ us, ofSource (span.excerpt source) = .ok us ∧ ks = us.map (Token.shift span.start) ∧
      ∀ u ∈ us, u.text (span.excerpt source) = (u.shift span.start).text source := by
  have hscan : Scan .origin source.toList tokens := scan_eq_ok_iff.1 htokens
  obtain ⟨before', behind', hparts⟩ := hpart
  obtain ⟨first, last, as, bs, hfirst, hlast, rfl⟩ := hspan.exists_ends fun k hk hkind =>
    hsource (hscan.mem_of_newline (hparts ▸ by simp [hk]) hkind)
  rw [← hparts, hfirst, List.append_assoc, List.cons_append] at hscan
  obtain ⟨before, rest, hbefore, hstart, _, hscan⟩ := hscan.from_token hsource
  rw [← List.cons_append, ← hfirst, hlast, List.append_assoc, List.singleton_append] at hscan
  obtain ⟨text, behind, rfl, hstop, hleads, _⟩ := hscan.up_to_token fun hmem =>
    hsource (hbefore ▸ List.mem_append_right _ hmem)
  rw [← hlast] at hleads
  have hbefore_line : '\n' ∉ before := fun hmem => hsource (hbefore ▸ List.mem_append_left _ hmem)
  have htext : '\n' ∉ text := fun hmem => hsource (hbefore ▸ by simp [hmem])
  have hshift : Position.origin.after before = (Position.origin.after before).shift .origin :=
    (Position.shift_origin (Position.line_after _ hbefore_line)).symm
  rw [← Position.after_append] at hstop
  obtain ⟨us, hus, hks⟩ := hleads.alone.unshift hshift htext
  have hexcerpt : Span.excerpt source ⟨first.span.start, last.span.stop⟩ = String.ofList text :=
    Span.excerpt_of_after hbefore (by rw [hstart, hstop])
  refine ⟨us, ?_, hstart ▸ hks, fun u hu => ?_⟩
  · rw [hexcerpt, ofSource, String.toList_ofList]
    exact scan_eq_ok_iff.2 hus
  · rw [hexcerpt, hstart]
    exact Token.text_shift hbefore hbefore_line htext hus hu

end Tokens

end Offside
