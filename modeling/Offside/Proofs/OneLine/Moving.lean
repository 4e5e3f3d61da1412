import Offside.Proofs.Brackets
import Offside.Proofs.OneLine.Derives
import Offside.Proofs.Scanning

set_option autoImplicit false

/-!
# Moving tokens

A derivation asks of its tokens for nothing but their kinds and, of those that are no brackets, their texts.
So the tokens may be moved to other places, even of another source, if they have the same texts there.
-/
namespace Offside

/-- The token at another place. -/
def Token.movedTo (place : Token → Span) (t : Token) : Token := ⟨t.kind, place t⟩

namespace OneLine

/-- The tokens that are no brackets keep their texts. -/
def Retold (source source' : String) (place : Token → Span) (ks : List Token) : Prop :=
  ∀ t ∈ ks, t.kind.isBracket = false → (t.movedTo place).text source' = t.text source

theorem retold_append {source source' : String} {place : Token → Span} {ks ls : List Token} :
    Retold source source' place (ks ++ ls) ↔
      Retold source source' place ks ∧ Retold source source' place ls :=
  List.forall_mem_append

theorem retold_cons {source source' : String} {place : Token → Span} {t : Token} {ks : List Token} :
    Retold source source' place (t :: ks) ↔
      (t.kind.isBracket = false → (t.movedTo place).text source' = t.text source) ∧
        Retold source source' place ks :=
  List.forall_mem_cons

namespace Phrase

def movedTerminal (place : Token → Span) {kind : Kind} (t : Terminal kind) : Terminal kind :=
  ⟨t.val.movedTo place, t.property⟩

/-- The phrase with its tokens at other places. -/
def moved (place : Token → Span) : {x : Symbol} → Phrase x → Phrase x
  | _, .assignment left sign right =>
    .assignment (left.moved place) (movedTerminal place sign) (right.moved place)
  | _, .conditional left sign right =>
    .conditional (left.moved place) (movedTerminal place sign) (right.moved place)
  | _, .function left sign right =>
    .function (left.moved place) (movedTerminal place sign) (right.moved place)
  | _, .plain inner => .plain (inner.moved place)
  | _, .unary sign operator written right =>
    .unary (sign.movedTo place) operator written (right.moved place)
  | _, .single inner => .single (inner.moved place)
  | _, .chain left rest => .chain (left.moved place) (rest.moved place)
  | _, .noOperand => .noOperand
  | _, .operand sign mem operator written next rest =>
    .operand (sign.movedTo place) mem operator written (next.moved place) (rest.moved place)
  | _, .suffixed left rest => .suffixed (left.moved place) (rest.moved place)
  | _, .noSuffix => .noSuffix
  | _, .call start inner stop rest =>
    .call (movedTerminal place start) (inner.moved place) (movedTerminal place stop) (rest.moved place)
  | _, .index start inner stop rest =>
    .index (movedTerminal place start) (inner.moved place) (movedTerminal place stop) (rest.moved place)
  | _, .identifier t => .identifier (movedTerminal place t)
  | _, .number t => .number (movedTerminal place t)
  | _, .string t => .string (movedTerminal place t)
  | _, .trueWord t => .trueWord (movedTerminal place t)
  | _, .falseWord t => .falseWord (movedTerminal place t)
  | _, .group start inner comma stop =>
    .group (movedTerminal place start) (inner.moved place) (comma.map (movedTerminal place))
      (movedTerminal place stop)
  | _, .list start inner stop =>
    .list (movedTerminal place start) (inner.moved place) (movedTerminal place stop)
  | _, .noArguments => .noArguments
  | _, .lastArgument first => .lastArgument (first.moved place)
  | _, .argument first comma rest =>
    .argument (first.moved place) (movedTerminal place comma) (rest.moved place)
  | _, .bareName t => .bareName (movedTerminal place t)
  | _, .groupedName start inner comma stop =>
    .groupedName (movedTerminal place start) (inner.moved place) (comma.map (movedTerminal place))
      (movedTerminal place stop)
  | _, .noNames => .noNames
  | _, .lastName first => .lastName (first.moved place)
  | _, .moreNames first comma rest =>
    .moreNames (first.moved place) (movedTerminal place comma) (rest.moved place)
  | _, .oneParameter t => .oneParameter (movedTerminal place t)
  | _, .parameterList start inner stop =>
    .parameterList (movedTerminal place start) (inner.moved place) (movedTerminal place stop)

variable {source source' : String} {place : Token → Span} {x : Symbol}

theorem optional_moved (comma : Option (Terminal .comma)) :
    optional (comma.map (movedTerminal place)) = (optional comma).map (Token.movedTo place) := by
  cases comma <;> rfl

theorem tokens_moved (p : Phrase x) : (p.moved place).tokens = p.tokens.map (Token.movedTo place) := by
  induction p <;>
    simp only [moved, tokens, movedTerminal, optional_moved, List.map_append, List.map_cons, List.map_nil, *]

theorem text_movedTerminal {kind : Kind} {t : Terminal kind} (h : Retold source source' place [t.val])
    (hkind : kind.isBracket = false) : (movedTerminal place t).val.text source' = t.val.text source :=
  h t.val (List.mem_singleton_self _) (t.property.symm ▸ hkind)

theorem meaning_moved (p : Phrase x) (h : Retold source source' place p.tokens) :
    (p.moved place).meaning source' = p.meaning source := by
  induction p with
  | identifier t | bareName t | oneParameter t =>
    simp only [moved, meaning, text_movedTerminal h rfl]
  | number t => simp only [moved, meaning, numberOf, text_movedTerminal h rfl]
  | string t => simp only [moved, meaning, stringOf, text_movedTerminal h rfl]
  | trueWord | falseWord | noOperand | noSuffix | noArguments | noNames => rfl
  | _ =>
    simp only [tokens, retold_append, retold_cons] at h
    simp only [moved, meaning, *]

/-- Moved tokens derive what they did. -/
theorem proper_moved (p : Phrase x) (hp : p.Proper source) (h : Retold source source' place p.tokens) :
    (p.moved place).Proper source' := by
  induction p with
  | assignment left sign right ih ih' =>
    simp only [tokens, retold_append, retold_cons] at h
    refine ⟨?_, ih hp.2.1 h.1, ih' hp.2.2 h.2.2⟩
    rw [meaning_moved left h.1]
    exact hp.1
  | _ =>
    simp only [tokens, retold_append, retold_cons] at h
    simp only [Proper] at hp
    simp only [moved, Proper, and_self, *]

end Phrase

theorem Derives.moved {source source' : String} {place : Token → Span} {x : Symbol} {ks : List Token}
    {m : x.Meaning} (h : Derives source x ks m) (hretold : Retold source source' place ks) :
    Derives source' x (ks.map (Token.movedTo place)) m := by
  obtain ⟨p, hp, rfl, rfl⟩ := h
  exact ⟨p.moved place, p.proper_moved hp hretold, p.tokens_moved, p.meaning_moved hretold⟩

/-- What a derivation asks of a token. -/
def told (w : Kind × String) : Kind × String := (w.1, if w.1.isBracket then "" else w.2)

/-- Tokens that differ from each other can be moved to wherever there are tokens of the same kinds. -/
theorem exists_place {ks ls : List Token} (hnodup : ks.Nodup)
    (h : ls.map Token.kind = ks.map Token.kind) : ∃ place, ks.map (Token.movedTo place) = ls := by
  induction ks generalizing ls with
  | nil => exact ⟨Token.span, (List.map_eq_nil_iff.1 h).symm⟩
  | cons k ks ih =>
    obtain ⟨l, ls, rfl, hkind, hkinds⟩ := List.map_eq_cons_iff.1 h
    obtain ⟨hk, hks⟩ := List.nodup_cons.1 hnodup
    obtain ⟨place, rfl⟩ := ih hks hkinds
    refine ⟨Function.update place k l.span, ?_⟩
    rw [List.map_cons]
    congr 1
    · simp [Token.movedTo, ← hkind]
    · refine List.map_congr_left fun t ht => ?_
      rw [Token.movedTo, Function.update_of_ne (ne_of_mem_of_not_mem ht hk), Token.movedTo]

/-- Tokens that tell the same derive the same. -/
theorem Derives.retold {source source' : String} {x : Symbol} {ks ls : List Token} {m : x.Meaning}
    (h : Derives source x ks m) (hnodup : ks.Nodup)
    (hls : (ls.map (Token.word source')).map told = (ks.map (Token.word source)).map told) :
    Derives source' x ls m := by
  have hkinds : ls.map Token.kind = ks.map Token.kind := by
    simpa [Function.comp_def, told, Token.word] using congrArg (List.map Prod.fst) hls
  obtain ⟨place, rfl⟩ := exists_place hnodup hkinds
  simp only [List.map_map, List.map_inj_left, Function.comp_apply] at hls
  refine h.moved fun t ht hbracket => ?_
  have htext := congrArg Prod.snd (hls t ht)
  simpa [told, Token.word, Token.movedTo, hbracket] using htext

end OneLine

end Offside
