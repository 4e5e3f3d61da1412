import Offside.Proofs.OneLine.Cuts

set_option autoImplicit false

/-!
# Derivations are unique

Two derivations of the same tokens are one: each constructor of a phrase is the only one that derives its
tokens as soon as its parts are the only phrases of theirs.
-/
namespace Offside.OneLine.Phrase

variable {source : String}

/-- Two phrases with the same tokens are one. A sequence is compared before the bracket that closes
it. -/
def Unique (source : String) : {x : Symbol} → Phrase x → Prop
  | .operation tiers, p => tiers ≤ 4 → ∀ q : Phrase (.operation tiers), p.Proper source →
    q.Proper source → Fine source p.tokens → p.tokens = q.tokens → p = q
  | .operands tier, p => tier < 4 → ∀ q : Phrase (.operands tier), p.Proper source →
    q.Proper source → Fine source p.tokens → p.tokens = q.tokens → p = q
  | .arguments, p => ∀ (q : Phrase .arguments) (close : Kind) (stop stop' : Terminal close)
    (ks ks' : List Token), close = .closeParen ∨ close = .closeBracket → p.Proper source →
    q.Proper source → Fine source (p.tokens ++ stop.val :: ks) →
    p.tokens ++ stop.val :: ks = q.tokens ++ stop'.val :: ks' → p = q
  | .names, p => ∀ (q : Phrase .names) (stop stop' : Terminal .closeParen),
    Fine source (p.tokens ++ [stop.val]) → p.tokens ++ [stop.val] = q.tokens ++ [stop'.val] → p = q
  | x, p => ∀ q : Phrase x, p.Proper source → q.Proper source → Fine source p.tokens →
    p.tokens = q.tokens → p = q

section Expressions

variable {primary : Phrase .primary} {operation : Phrase (.operation 4)} {list : Phrase .parameters}
  {right : Phrase .expression}

theorem unique_assignment (h : primary.Unique source) (h' : right.Unique source)
    (sign : Terminal .assignment) : (assignment primary sign right).Unique source := by
  intro q hp hq hfine he
  obtain ⟨hl, hr, hk⟩ := lead_eq hp hq hfine he
  cases q with
  | assignment primary' sign' right' =>
    obtain ⟨rfl, hright⟩ := Terminal.cons_inj hr
    obtain rfl := h primary' hp.2.1 hq.2.1 hfine.left hl
    obtain rfl := h' right' hp.2.2 hq.2.2 hfine.right.tail hright
    rfl
  | _ => cases hk

theorem unique_conditional (h : operation.Unique source) (h' : right.Unique source)
    (sign : Terminal .question) : (conditional operation sign right).Unique source := by
  intro q hp hq hfine he
  obtain ⟨hl, hr, hk⟩ := lead_eq hp hq hfine he
  cases q with
  | conditional operation' sign' right' =>
    obtain ⟨rfl, hright⟩ := Terminal.cons_inj hr
    obtain rfl := h (Nat.le_refl 4) operation' hp.1 hq.1 hfine.left hl
    obtain rfl := h' right' hp.2 hq.2 hfine.right.tail hright
    rfl
  | _ => cases hk

theorem unique_function (h : list.Unique source) (h' : right.Unique source) (sign : Terminal .arrow) :
    (function list sign right).Unique source := by
  intro q hp hq hfine he
  obtain ⟨hl, hr, hk⟩ := lead_eq hp hq hfine he
  cases q with
  | function list' sign' right' =>
    obtain ⟨rfl, hright⟩ := Terminal.cons_inj hr
    obtain rfl := h list' list.proper_parameters list'.proper_parameters hfine.left hl
    obtain rfl := h' right' hp hq hfine.right.tail hright
    rfl
  | _ => cases hk

theorem unique_plain (h : operation.Unique source) : (plain operation).Unique source := by
  intro q hp hq hfine he
  obtain ⟨hl, hr, hk⟩ := lead_eq hp hq hfine he
  cases q with
  | plain operation' =>
    obtain rfl := h (Nat.le_refl 4) operation' hp hq hfine hl
    rfl
  | _ => cases hk

end Expressions

section Operations

variable {n : Nat} {sign : Token} {operator : Operator} {operation : Phrase (.operation n)}
  {rest : Phrase (.operands n)}

theorem unique_unary {right : Phrase (.operation 0)} (h : right.Unique source)
    (hwritten : Operator.unary? sign.kind = some operator) :
    (unary sign operator hwritten right).Unique source := by
  intro htiers q hp hq hfine he
  cases q with
  | unary sign' operator' hwritten' right' =>
    obtain ⟨rfl, hr⟩ := List.cons.inj he
    obtain rfl := Option.some.inj (hwritten.symm.trans hwritten')
    obtain rfl := h htiers right' hp hq hfine.tail hr
    rfl
  | single inner' => exact absurd he (ne_primary hwritten _ inner')

theorem unique_single {inner : Phrase .primary} (h : inner.Unique source) :
    (single inner).Unique source := by
  intro htiers q hp hq hfine he
  cases q with
  | unary sign' operator' hwritten' right' => exact absurd he.symm (ne_primary hwritten' _ inner)
  | single inner' =>
    obtain rfl := h inner' hp hq hfine he
    rfl

theorem unique_chain (h : operation.Unique source) (h' : rest.Unique source) :
    (chain operation rest).Unique source := by
  intro htiers q hp hq hfine he
  cases q with
  | chain operation' rest' =>
    obtain ⟨hl, hr⟩ := cut_operation htiers hp.1 hq.1 hfine he
    obtain rfl := h (Nat.le_of_lt htiers) operation' hp.1 hq.1 hfine.left hl
    obtain rfl := h' htiers rest' hp.2 hq.2 hfine.right hr
    rfl

theorem unique_noOperand : (noOperand : Phrase (.operands n)).Unique source := by
  intro htiers q hp hq hfine he
  cases q with
  | noOperand => rfl
  | operand sign' hmem' operator' hwritten' operation' rest' => cases he

theorem unique_operand (h : operation.Unique source) (h' : rest.Unique source)
    (hmem : sign.kind ∈ tier n) (hwritten : Operator.binary? sign.kind = some operator) :
    (operand sign hmem operator hwritten operation rest).Unique source := by
  intro htiers q hp hq hfine he
  cases q with
  | noOperand => cases he
  | operand sign' hmem' operator' hwritten' operation' rest' =>
    obtain ⟨rfl, hr⟩ := List.cons.inj he
    obtain rfl := Option.some.inj (hwritten.symm.trans hwritten')
    obtain ⟨hn, hr'⟩ := cut_operation htiers hp.1 hq.1 hfine.tail hr
    obtain rfl := h (Nat.le_of_lt htiers) operation' hp.1 hq.1 hfine.tail.left hn
    obtain rfl := h' htiers rest' hp.2 hq.2 hfine.tail.right hr'
    rfl

end Operations

section Primaries

variable {item : Phrase .expression} {items : Phrase .arguments} {rest : Phrase .suffixes}

theorem unique_suffixed {left : Phrase .atom} (h : left.Unique source) (h' : rest.Unique source) :
    (suffixed left rest).Unique source := by
  intro q hp hq hfine he
  cases q with
  | suffixed left' rest' =>
    obtain ⟨hl, hr⟩ := cut_atom hp.1 hq.1 hfine he
    obtain rfl := h left' hp.1 hq.1 hfine.left hl
    obtain rfl := h' rest' hp.2 hq.2 hfine.right hr
    rfl

theorem unique_noSuffix : noSuffix.Unique source := by
  intro q hp hq hfine he
  cases q with
  | noSuffix => rfl
  | call _ _ _ _ | index _ _ _ _ => cases he

theorem unique_call (h : items.Unique source) (h' : rest.Unique source)
    (start : Terminal .openParen) (stop : Terminal .closeParen) :
    (call start items stop rest).Unique source := by
  intro q hp hq hfine he
  cases q with
  | noSuffix => cases he
  | call start' items' stop' rest' =>
    obtain ⟨rfl, hr⟩ := Terminal.cons_inj he
    obtain rfl := h items' _ stop stop' _ _ (.inl rfl) hp.1 hq.1 hfine.tail hr
    obtain ⟨rfl, hr'⟩ := Terminal.cons_inj (List.append_cancel_left hr)
    obtain rfl := h' rest' hp.2 hq.2 hfine.tail.right.tail hr'
    rfl
  | index start' _ _ _ => cases start.kind_eq start' he

theorem unique_index (h : item.Unique source) (h' : rest.Unique source)
    (start : Terminal .openBracket) (stop : Terminal .closeBracket) :
    (index start item stop rest).Unique source := by
  intro q hp hq hfine he
  cases q with
  | noSuffix => cases he
  | call start' _ _ _ => cases start.kind_eq start' he
  | index start' item' stop' rest' =>
    obtain ⟨rfl, hr⟩ := Terminal.cons_inj he
    obtain ⟨hi, hr'⟩ := cut_expression hp.1 hq.1 hfine.tail hr (Int.le_of_eq (stop.nextPower _))
      (Int.le_of_eq (stop'.nextPower _))
    obtain rfl := h item' hp.1 hq.1 hfine.tail.left hi
    obtain ⟨rfl, hr''⟩ := Terminal.cons_inj hr'
    obtain rfl := h' rest' hp.2 hq.2 hfine.tail.right.tail hr''
    rfl

/-- An atom that is one token is the only one. -/
theorem unique_token {p : Phrase .atom} (h : p.opening ≠ .openParen ∧ p.opening ≠ .openBracket) :
    p.Unique source := by
  intro q hp hq hfine he
  have hk := opening_eq_of_tokens he
  cases p with
  | identifier t =>
    cases q with
    | identifier t' => exact congrArg _ (Terminal.cons_inj he).1
    | _ => cases hk
  | number t =>
    cases q with
    | number t' => exact congrArg _ (Terminal.cons_inj he).1
    | _ => cases hk
  | string t =>
    cases q with
    | string t' => exact congrArg _ (Terminal.cons_inj he).1
    | _ => cases hk
  | trueWord t =>
    cases q with
    | trueWord t' => exact congrArg _ (Terminal.cons_inj he).1
    | _ => cases hk
  | falseWord t =>
    cases q with
    | falseWord t' => exact congrArg _ (Terminal.cons_inj he).1
    | _ => cases hk
  | group _ _ _ _ => exact absurd rfl h.1
  | list _ _ _ => exact absurd rfl h.2

theorem unique_group (h : item.Unique source) (start : Terminal .openParen)
    (comma : Option (Terminal .comma)) (stop : Terminal .closeParen) :
    (group start item comma stop).Unique source := by
  intro q hp hq hfine he
  have hk := opening_eq_of_tokens he
  cases q with
  | group start' item' comma' stop' =>
    obtain ⟨rfl, hr⟩ := Terminal.cons_inj he
    obtain ⟨hi, hr'⟩ := cut_expression hp hq hfine.tail hr (nextPower_optional comma stop)
      (nextPower_optional comma' stop')
    obtain rfl := h item' hp hq hfine.tail.left hi
    obtain ⟨rfl, rfl⟩ := optional_inj hr'
    rfl
  | _ => cases hk

theorem unique_list (h : items.Unique source) (start : Terminal .openBracket)
    (stop : Terminal .closeBracket) : (list start items stop).Unique source := by
  intro q hp hq hfine he
  have hk := opening_eq_of_tokens he
  cases q with
  | list start' items' stop' =>
    obtain ⟨rfl, hr⟩ := Terminal.cons_inj he
    obtain rfl := h items' _ stop stop' _ _ (.inr rfl) hp hq hfine.tail hr
    obtain ⟨rfl, _⟩ := Terminal.cons_inj (List.append_cancel_left hr)
    rfl
  | _ => cases hk

end Primaries

section Sequences

variable {first : Phrase .expression} {name : Phrase .name}

theorem unique_noArguments : noArguments.Unique source := by
  intro q close stop stop' ks ks' hclose hp hq hfine he
  cases q with
  | noArguments => rfl
  | lastArgument first' =>
    exact absurd he (ne_expression hq (he ▸ hfine) hclose stop ks (nextPower_close hclose stop' ks'))
  | argument first' comma' rest' =>
    rw [tokens, tokens, List.append_assoc] at he
    exact absurd he (ne_expression hq.1 (he ▸ hfine) hclose stop ks
      (Int.le_of_eq (comma'.nextPower _)))

theorem unique_lastArgument (h : first.Unique source) : (lastArgument first).Unique source := by
  intro q close stop stop' ks ks' hclose hp hq hfine he
  have hstop := nextPower_close hclose stop ks
  cases q with
  | noArguments => exact absurd he.symm (ne_expression hp hfine hclose stop' ks' hstop)
  | lastArgument first' =>
    obtain ⟨hf, _⟩ := cut_expression hp hq hfine he hstop (nextPower_close hclose stop' ks')
    obtain rfl := h first' hp hq hfine.left hf
    rfl
  | argument first' comma' rest' =>
    rw [tokens, tokens, List.append_assoc] at he
    obtain ⟨_, hr⟩ := cut_expression hp hq.1 hfine he hstop (Int.le_of_eq (comma'.nextPower _))
    exact absurd (stop.kind_eq comma' hr) (Kind.ne_comma hclose)

theorem unique_argument {rest : Phrase .arguments} (h : first.Unique source)
    (h' : rest.Unique source) (comma : Terminal .comma) :
    (argument first comma rest).Unique source := by
  intro q close stop stop' ks ks' hclose hp hq hfine he
  have hcomma := fun ks => Int.le_of_eq (comma.nextPower ks)
  rw [tokens, List.append_assoc] at he hfine
  cases q with
  | noArguments => exact absurd he.symm (ne_expression hp.1 hfine hclose stop' ks' (hcomma _))
  | lastArgument first' =>
    obtain ⟨_, hr⟩ := cut_expression hp.1 hq hfine he (hcomma _) (nextPower_close hclose stop' ks')
    exact absurd (comma.kind_eq stop' hr).symm (Kind.ne_comma hclose)
  | argument first' comma' rest' =>
    rw [tokens, List.append_assoc] at he
    obtain ⟨hf, hr⟩ :=
      cut_expression hp.1 hq.1 hfine he (hcomma _) (Int.le_of_eq (comma'.nextPower _))
    obtain rfl := h first' hp.1 hq.1 hfine.left hf
    obtain ⟨rfl, hr'⟩ := Terminal.cons_inj hr
    obtain rfl := h' rest' close stop stop' ks ks' hclose hp.2 hq.2 hfine.right.tail hr'
    rfl

theorem unique_bareName (t : Terminal .identifier) : (bareName t).Unique source := by
  intro q hp hq hfine he
  cases q with
  | bareName t' => exact congrArg _ (Terminal.cons_inj he).1
  | groupedName start _ _ _ => cases t.kind_eq start he

theorem unique_groupedName (h : name.Unique source) (start : Terminal .openParen)
    (comma : Option (Terminal .comma)) (stop : Terminal .closeParen) :
    (groupedName start name comma stop).Unique source := by
  intro q hp hq hfine he
  cases q with
  | bareName t' => cases start.kind_eq t' he
  | groupedName start' name' comma' stop' =>
    obtain ⟨rfl, hr⟩ := Terminal.cons_inj he
    obtain ⟨hi, hr'⟩ := cut_name hfine.tail hr (nextPower_optional comma stop)
      (nextPower_optional comma' stop')
    obtain rfl := h name' name.proper_name name'.proper_name hfine.tail.left hi
    obtain ⟨rfl, rfl⟩ := optional_inj hr'
    rfl

theorem unique_noNames : noNames.Unique source := by
  intro q stop stop' hfine he
  cases q with
  | noNames => rfl
  | lastName name' => exact absurd he (ne_name (he ▸ hfine) stop [] (Int.le_of_eq (stop'.nextPower _)))
  | moreNames name' comma' rest' =>
    rw [tokens, tokens, List.append_assoc] at he
    exact absurd he (ne_name (he ▸ hfine) stop [] (Int.le_of_eq (comma'.nextPower _)))

theorem unique_lastName (h : name.Unique source) : (lastName name).Unique source := by
  intro q stop stop' hfine he
  have hstop := Int.le_of_eq (stop.nextPower [])
  cases q with
  | noNames => exact absurd he.symm (ne_name hfine stop' [] hstop)
  | lastName name' =>
    obtain ⟨hf, _⟩ := cut_name hfine he hstop (Int.le_of_eq (stop'.nextPower _))
    obtain rfl := h name' name.proper_name name'.proper_name hfine.left hf
    rfl
  | moreNames name' comma' rest' =>
    rw [tokens, tokens, List.append_assoc] at he
    obtain ⟨_, hr⟩ := cut_name hfine he hstop (Int.le_of_eq (comma'.nextPower _))
    cases stop.kind_eq comma' hr

theorem unique_moreNames {rest : Phrase .names} (h : name.Unique source) (h' : rest.Unique source)
    (comma : Terminal .comma) : (moreNames name comma rest).Unique source := by
  intro q stop stop' hfine he
  have hcomma := fun ks => Int.le_of_eq (comma.nextPower ks)
  rw [tokens, List.append_assoc] at he hfine
  cases q with
  | noNames => exact absurd he.symm (ne_name hfine stop' [] (hcomma _))
  | lastName name' =>
    obtain ⟨_, hr⟩ := cut_name hfine he (hcomma _) (Int.le_of_eq (stop'.nextPower _))
    cases comma.kind_eq stop' hr
  | moreNames name' comma' rest' =>
    rw [tokens, List.append_assoc] at he
    obtain ⟨hf, hr⟩ := cut_name hfine he (hcomma _) (Int.le_of_eq (comma'.nextPower _))
    obtain rfl := h name' name.proper_name name'.proper_name hfine.left hf
    obtain ⟨rfl, hr'⟩ := Terminal.cons_inj hr
    obtain rfl := h' rest' stop stop' hfine.right.tail hr'
    rfl

theorem unique_oneParameter (t : Terminal .identifier) : (oneParameter t).Unique source := by
  intro q hp hq hfine he
  cases q with
  | oneParameter t' => exact congrArg _ (Terminal.cons_inj he).1
  | parameterList start _ _ => cases t.kind_eq start he

theorem unique_parameterList {names : Phrase .names} (h : names.Unique source)
    (start : Terminal .openParen) (stop : Terminal .closeParen) :
    (parameterList start names stop).Unique source := by
  intro q hp hq hfine he
  cases q with
  | oneParameter t' => cases start.kind_eq t' he
  | parameterList start' names' stop' =>
    obtain ⟨rfl, hr⟩ := Terminal.cons_inj he
    obtain rfl := h names' stop stop' hfine.tail hr
    obtain ⟨rfl, _⟩ := Terminal.cons_inj (List.append_cancel_left hr)
    rfl

end Sequences

/-- No other phrase of the symbol has the tokens of a phrase. -/
theorem unique {x : Symbol} (p : Phrase x) : p.Unique source := by
  induction p with
  | assignment left sign right ih ih' => exact unique_assignment ih ih' sign
  | conditional left sign right ih ih' => exact unique_conditional ih ih' sign
  | function left sign right ih ih' => exact unique_function ih ih' sign
  | plain inner ih => exact unique_plain ih
  | unary sign operator hwritten right ih => exact unique_unary ih hwritten
  | single inner ih => exact unique_single ih
  | chain left rest ih ih' => exact unique_chain ih ih'
  | noOperand => exact unique_noOperand
  | operand sign hmem operator hwritten next rest ih ih' => exact unique_operand ih ih' hmem hwritten
  | suffixed left rest ih ih' => exact unique_suffixed ih ih'
  | noSuffix => exact unique_noSuffix
  | call start inner stop rest ih ih' => exact unique_call ih ih' start stop
  | index start inner stop rest ih ih' => exact unique_index ih ih' start stop
  | identifier t | number t | string t | trueWord t | falseWord t =>
    exact unique_token (by simp [opening])
  | group start inner comma stop ih => exact unique_group ih start comma stop
  | list start inner stop ih => exact unique_list ih start stop
  | noArguments => exact unique_noArguments
  | lastArgument first ih => exact unique_lastArgument ih
  | argument first comma rest ih ih' => exact unique_argument ih ih' comma
  | bareName t => exact unique_bareName t
  | groupedName start inner comma stop ih => exact unique_groupedName ih start comma stop
  | noNames => exact unique_noNames
  | lastName first ih => exact unique_lastName ih
  | moreNames first comma rest ih ih' => exact unique_moreNames ih ih' comma
  | oneParameter t => exact unique_oneParameter t
  | parameterList start inner stop ih => exact unique_parameterList ih start stop

end Offside.OneLine.Phrase
