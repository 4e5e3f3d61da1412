import Offside.Proofs.OneLine.Grammar

set_option autoImplicit false

/-!
# Derived tokens

How derivations of longer phrases are put together from those of shorter ones in the order in which the
tokens are read: an operation or a primary grows at its end.
-/
namespace Offside.OneLine

variable {source : String}

namespace Phrase

theorem operands_append {n : Nat} (q : Phrase (.operands n)) (hq : q.Proper source) :
    (p : Phrase (.operands n)) → p.Proper source →
    ∃ r : Phrase (.operands n), r.Proper source ∧ r.tokens = p.tokens ++ q.tokens ∧
      ∀ left : Tree, r.meaning source left = q.meaning source (p.meaning source left)
  | .noOperand, _ => ⟨q, hq, rfl, fun _ => rfl⟩
  | .operand sign hmem operator hwritten next rest, h => by
    obtain ⟨r, hr, htokens, hmeaning⟩ := operands_append q hq rest h.2
    refine ⟨.operand sign hmem operator hwritten next r, ⟨h.1, hr⟩, ?_, fun _ => hmeaning _⟩
    simp only [tokens, htokens, List.cons_append, List.append_assoc]

theorem suffixes_append (q : Phrase .suffixes) (hq : q.Proper source) :
    (p : Phrase .suffixes) → p.Proper source →
    ∃ r : Phrase .suffixes, r.Proper source ∧ r.tokens = p.tokens ++ q.tokens ∧
      ∀ left : Tree, r.meaning source left = q.meaning source (p.meaning source left)
  | .noSuffix, _ => ⟨q, hq, rfl, fun _ => rfl⟩
  | .call start inner stop rest, h => by
    obtain ⟨r, hr, htokens, hmeaning⟩ := suffixes_append q hq rest h.2
    refine ⟨.call start inner stop r, ⟨h.1, hr⟩, ?_, fun _ => hmeaning _⟩
    simp only [tokens, htokens, List.cons_append, List.append_assoc]
  | .index start inner stop rest, h => by
    obtain ⟨r, hr, htokens, hmeaning⟩ := suffixes_append q hq rest h.2
    refine ⟨.index start inner stop r, ⟨h.1, hr⟩, ?_, fun _ => hmeaning _⟩
    simp only [tokens, htokens, List.cons_append, List.append_assoc]

end Phrase

variable {js ks ls : List Token} {e l r : Tree} {es : List Tree}

namespace Derives

theorem atom (h : Derives source .atom ks e) : Derives source .primary ks e := by
  obtain ⟨p, hp, rfl, rfl⟩ := h
  exact ⟨.suffixed p .noSuffix, ⟨hp, trivial⟩, List.append_nil _, rfl⟩

theorem suffix {f : Tree → Tree} (h : Derives source .primary js l)
    (hf : Derives source .suffixes ks f) : Derives source .primary (js ++ ks) (f l) := by
  obtain ⟨p, hp, rfl, rfl⟩ := h
  obtain ⟨q, hq, rfl, rfl⟩ := hf
  cases p with
  | suffixed first rest =>
    obtain ⟨r, hr, htokens, hmeaning⟩ := Phrase.suffixes_append q hq rest hp.2
    refine ⟨.suffixed first r, ⟨hp.1, hr⟩, ?_, hmeaning _⟩
    simp only [Phrase.tokens, htokens, List.append_assoc]

theorem call (h : Derives source .primary js l) {start stop : Token}
    (hstart : start.kind = .openParen) (hes : Derives source .arguments ks es)
    (hstop : stop.kind = .closeParen) :
    Derives source .primary (js ++ start :: (ks ++ [stop])) (.call default l es) := by
  obtain ⟨p, hp, rfl, rfl⟩ := hes
  exact h.suffix ⟨.call ⟨start, hstart⟩ p ⟨stop, hstop⟩ .noSuffix, ⟨hp, trivial⟩, rfl, rfl⟩

theorem index (h : Derives source .primary js l) {start stop : Token}
    (hstart : start.kind = .openBracket) (he : Derives source .expression ks e)
    (hstop : stop.kind = .closeBracket) :
    Derives source .primary (js ++ start :: (ks ++ [stop])) (.index default l e) := by
  obtain ⟨p, hp, rfl, rfl⟩ := he
  exact h.suffix ⟨.index ⟨start, hstart⟩ p ⟨stop, hstop⟩ .noSuffix, ⟨hp, trivial⟩, rfl, rfl⟩

theorem primary (h : Derives source .primary ks e) : Derives source (.operation 0) ks e := by
  obtain ⟨p, hp, rfl, rfl⟩ := h
  exact ⟨.single p, hp, rfl, rfl⟩

/-- An operation of some tiers is one of more tiers. -/
theorem lift {m n : Nat} (h : Derives source (.operation m) ks e) (hmn : m ≤ n) :
    Derives source (.operation n) ks e := by
  induction hmn with
  | refl => exact h
  | step _ ih =>
    obtain ⟨p, hp, rfl, rfl⟩ := ih
    exact ⟨.chain p .noOperand, ⟨hp, trivial⟩, List.append_nil _, rfl⟩

theorem binary {n : Nat} (h : Derives source (.operation (n + 1)) js l) {sign : Token}
    (hmem : sign.kind ∈ tier n) {operator : Operator}
    (hwritten : Operator.binary? sign.kind = some operator)
    (hr : Derives source (.operation n) ks r) :
    Derives source (.operation (n + 1)) (js ++ sign :: ks) (.binary default operator l r) := by
  obtain ⟨p, hp, rfl, rfl⟩ := h
  obtain ⟨q, hq, rfl, rfl⟩ := hr
  cases p with
  | chain left rest =>
    obtain ⟨r, hr, htokens, hmeaning⟩ := Phrase.operands_append
      (.operand sign hmem operator hwritten q .noOperand) ⟨hq, trivial⟩ rest hp.2
    refine ⟨.chain left r, ⟨hp.1, hr⟩, ?_, hmeaning _⟩
    simp only [Phrase.tokens, htokens, List.append_assoc, List.append_nil]

theorem unary {sign : Token} {operator : Operator}
    (hwritten : Operator.unary? sign.kind = some operator)
    (h : Derives source (.operation 0) ks e) :
    Derives source (.operation 0) (sign :: ks) (.unary default operator e) := by
  obtain ⟨p, hp, rfl, rfl⟩ := h
  exact ⟨.unary sign operator hwritten p, hp, rfl, rfl⟩

theorem plain (h : Derives source (.operation 4) ks e) : Derives source .expression ks e := by
  obtain ⟨p, hp, rfl, rfl⟩ := h
  exact ⟨.plain p, hp, rfl, rfl⟩

theorem assignment (h : Derives source .primary js l) (ha : l.isAssignable) {sign : Token}
    (hsign : sign.kind = .assignment) (he : Derives source .expression ks e) :
    Derives source .expression (js ++ sign :: ks) (.assign default l e) := by
  obtain ⟨p, hp, rfl, rfl⟩ := h
  obtain ⟨q, hq, rfl, rfl⟩ := he
  exact ⟨.assignment p ⟨sign, hsign⟩ q, ⟨ha, hp, hq⟩, rfl, rfl⟩

theorem conditional (h : Derives source (.operation 4) js l) {sign : Token}
    (hsign : sign.kind = .question) (he : Derives source .expression ks e) :
    Derives source .expression (js ++ sign :: ks) (.conditional default l [e]) := by
  obtain ⟨p, hp, rfl, rfl⟩ := h
  obtain ⟨q, hq, rfl, rfl⟩ := he
  exact ⟨.conditional p ⟨sign, hsign⟩ q, ⟨hp, hq⟩, rfl, rfl⟩

theorem function {names : List String} (h : Derives source .parameters js names) {sign : Token}
    (hsign : sign.kind = .arrow) (he : Derives source .expression ks e) :
    Derives source .expression (js ++ sign :: ks) (.function default names [e]) := by
  obtain ⟨p, _, rfl, rfl⟩ := h
  obtain ⟨q, hq, rfl, rfl⟩ := he
  exact ⟨.function p ⟨sign, hsign⟩ q, hq, rfl, rfl⟩

/-- One item between parentheses, with or without a comma behind it, is a group. -/
theorem group {start stop : Token} (hstart : start.kind = .openParen)
    (h : Derives source .arguments ks [e]) (hstop : stop.kind = .closeParen) :
    Derives source .atom (start :: (ks ++ [stop])) e := by
  obtain ⟨p, hp, rfl, hmeaning⟩ := h
  cases p with
  | noArguments => cases hmeaning
  | lastArgument first =>
    cases hmeaning
    exact ⟨.group ⟨start, hstart⟩ first none ⟨stop, hstop⟩, hp, rfl, rfl⟩
  | argument first comma rest =>
    obtain ⟨rfl, hrest⟩ := List.cons.inj hmeaning
    cases rest with
    | noArguments =>
      refine ⟨.group ⟨start, hstart⟩ first (some comma) ⟨stop, hstop⟩, hp.1, ?_, rfl⟩
      simp only [Phrase.tokens, Phrase.optional, List.append_assoc, List.cons_append]
    | lastArgument _ => cases hrest
    | argument _ _ _ => cases hrest

theorem list {start stop : Token} (hstart : start.kind = .openBracket)
    (h : Derives source .arguments ks es) (hstop : stop.kind = .closeBracket) :
    Derives source .atom (start :: (ks ++ [stop])) (.list default es) := by
  obtain ⟨p, hp, rfl, rfl⟩ := h
  exact ⟨.list ⟨start, hstart⟩ p ⟨stop, hstop⟩, hp, rfl, rfl⟩

theorem lastArgument (h : Derives source .expression ks e) :
    Derives source .arguments ks [e] := by
  obtain ⟨p, hp, rfl, rfl⟩ := h
  exact ⟨.lastArgument p, hp, rfl, rfl⟩

theorem argument (h : Derives source .expression js e) {comma : Token}
    (hcomma : comma.kind = .comma) (hes : Derives source .arguments ks es) :
    Derives source .arguments (js ++ comma :: ks) (e :: es) := by
  obtain ⟨p, hp, rfl, rfl⟩ := h
  obtain ⟨q, hq, rfl, rfl⟩ := hes
  exact ⟨.argument p ⟨comma, hcomma⟩ q, ⟨hp, hq⟩, rfl, rfl⟩

theorem bareName {t : Token} (h : t.kind = .identifier) :
    Derives source .name [t] (t.text source) := ⟨.bareName ⟨t, h⟩, trivial, rfl, rfl⟩

/-- One name between parentheses, with or without a comma behind it, is a name. -/
theorem groupedName {name : String} {start stop : Token} (hstart : start.kind = .openParen)
    (h : Derives source .name js name) {comma : Option (Terminal .comma)}
    (hstop : stop.kind = .closeParen) :
    Derives source .name (start :: (js ++ (Phrase.optional comma ++ [stop]))) name := by
  obtain ⟨p, hp, rfl, rfl⟩ := h
  exact ⟨.groupedName ⟨start, hstart⟩ p comma ⟨stop, hstop⟩, trivial, rfl, rfl⟩

theorem lastName {name : String} (h : Derives source .name ks name) :
    Derives source .names ks [name] := by
  obtain ⟨p, hp, rfl, rfl⟩ := h
  exact ⟨.lastName p, trivial, rfl, rfl⟩

theorem moreNames {name : String} {names : List String} (h : Derives source .name js name)
    {comma : Token} (hcomma : comma.kind = .comma) (hnames : Derives source .names ks names) :
    Derives source .names (js ++ comma :: ks) (name :: names) := by
  obtain ⟨p, hp, rfl, rfl⟩ := h
  obtain ⟨q, hq, rfl, rfl⟩ := hnames
  exact ⟨.moreNames p ⟨comma, hcomma⟩ q, trivial, rfl, rfl⟩

theorem parameterList {names : List String} {start stop : Token}
    (hstart : start.kind = .openParen) (h : Derives source .names ks names)
    (hstop : stop.kind = .closeParen) :
    Derives source .parameters (start :: (ks ++ [stop])) names := by
  obtain ⟨p, hp, rfl, rfl⟩ := h
  exact ⟨.parameterList ⟨start, hstart⟩ p ⟨stop, hstop⟩, trivial, rfl, rfl⟩

/-- A name is a parameter list of one name. -/
theorem oneParameter {name : String} (h : Derives source .name ks name) :
    Derives source .parameters ks [name] := by
  obtain ⟨p, hp, rfl, rfl⟩ := h
  cases p with
  | bareName t => exact ⟨.oneParameter t, trivial, rfl, rfl⟩
  | groupedName start inner comma stop =>
    cases comma with
    | none => exact ⟨.parameterList start (.lastName inner) stop, trivial, rfl, rfl⟩
    | some comma =>
      refine ⟨.parameterList start (.moreNames inner comma .noNames) stop, trivial, ?_, rfl⟩
      simp only [Phrase.tokens, Phrase.optional, List.append_assoc, List.cons_append]

end Derives

namespace Phrase

/-- Behind its first operand an operation is over, or it means an operator. -/
theorem operands_cases (source : String) {n : Nat} : (p : Phrase (.operands n)) →
    (p.tokens = [] ∧ ∀ left : Tree, p.meaning source left = left) ∨
      ∀ left : Tree, ∃ operator a b, p.meaning source left = Tree.binary default operator a b
  | .noOperand => .inl ⟨rfl, fun _ => rfl⟩
  | .operand _ _ operator _ next rest => by
    rcases operands_cases source rest with ⟨_, hrest⟩ | hrest
    · exact .inr fun left => ⟨operator, left, next.meaning source, hrest _⟩
    · exact .inr fun left => hrest _

/-- Behind its atom a primary is over, or it means a call or an index. -/
theorem suffixes_cases (source : String) : (p : Phrase .suffixes) →
    (p.tokens = [] ∧ ∀ left : Tree, p.meaning source left = left) ∨
      ∀ left : Tree, Reader.parameters? (p.meaning source left) = none
  | .noSuffix => .inl ⟨rfl, fun _ => rfl⟩
  | .call _ inner _ rest => by
    rcases suffixes_cases source rest with ⟨_, hrest⟩ | hrest
    · exact .inr fun left => congrArg Reader.parameters? (hrest _)
    · exact .inr fun left => hrest _
  | .index _ inner _ rest => by
    rcases suffixes_cases source rest with ⟨_, hrest⟩ | hrest
    · exact .inr fun left => congrArg Reader.parameters? (hrest _)
    · exact .inr fun left => hrest _

/-- An operation that can be assigned to is no operation. -/
theorem primary_of_isAssignable : {n : Nat} → (p : Phrase (.operation n)) → p.Proper source →
    Tree.isAssignable (p.meaning source) →
    Derives source .primary p.tokens (p.meaning source)
  | _, .unary _ _ _ _, _, ha => absurd ha (by simp [meaning, Tree.isAssignable])
  | _, .single inner, h, _ => ⟨inner, h, rfl, rfl⟩
  | _, .chain left rest, h, ha => by
    change Tree.isAssignable (rest.meaning source (left.meaning source)) at ha
    change Derives source .primary (left.tokens ++ rest.tokens)
      (rest.meaning source (left.meaning source))
    rcases operands_cases source rest with ⟨htokens, hmeaning⟩ | hmeaning
    · rw [hmeaning] at ha
      rw [htokens, hmeaning, List.append_nil]
      exact primary_of_isAssignable left h.1 ha
    · obtain ⟨operator, a, b, he⟩ := hmeaning (left.meaning source)
      rw [he] at ha
      cases ha

/-- A phrase that can stand before an arrow derives from a name, and arguments that are all names do
from names. -/
def Named (source : String) : {x : Symbol} → Phrase x → Prop
  | .expression, p | .operation _, p | .primary, p | .atom, p =>
    ∀ names : List String, Reader.parameters? (p.meaning source) = some names →
      ∃ name, names = [name] ∧ Derives source .name p.tokens name
  | .arguments, p => ∀ names : List String,
    List.map Tree.name? (p.meaning source) = names.map some → Derives source .names p.tokens names
  | _, _ => True

theorem named {x : Symbol} (p : Phrase x) : p.Named source := by
  induction p with
  | assignment | conditional | function | unary | number | string | trueWord | falseWord | list =>
    intro names h
    cases h
  | plain _ ih | single _ ih => exact ih
  | chain left rest ih _ =>
    intro names h
    change ∃ name, names = [name] ∧ Derives source .name (left.tokens ++ rest.tokens) name
    change Reader.parameters? (rest.meaning source (left.meaning source)) = some names at h
    rcases operands_cases source rest with ⟨htokens, hmeaning⟩ | hmeaning
    · rw [hmeaning] at h
      rw [htokens, List.append_nil]
      exact ih names h
    · obtain ⟨operator, a, b, he⟩ := hmeaning (left.meaning source)
      rw [he] at h
      cases h
  | suffixed left rest ih _ =>
    intro names h
    change ∃ name, names = [name] ∧ Derives source .name (left.tokens ++ rest.tokens) name
    change Reader.parameters? (rest.meaning source (left.meaning source)) = some names at h
    rcases suffixes_cases source rest with ⟨htokens, hmeaning⟩ | hmeaning
    · rw [hmeaning] at h
      rw [htokens, List.append_nil]
      exact ih names h
    · rw [hmeaning] at h
      cases h
  | identifier t =>
    intro names h
    exact ⟨_, (Option.some.inj h).symm, Derives.bareName t.property⟩
  | group start inner comma stop ih =>
    intro names h
    obtain ⟨name, rfl, hname⟩ := ih names h
    exact ⟨name, rfl, hname.groupedName start.property stop.property⟩
  | noArguments =>
    intro names h
    cases names with
    | nil => exact ⟨.noNames, trivial, rfl, rfl⟩
    | cons _ _ => cases h
  | lastArgument first ih =>
    intro names h
    cases names with
    | nil => cases h
    | cons name names =>
      obtain ⟨hfirst, hrest⟩ := List.cons.inj h
      obtain rfl : names = [] := List.map_eq_nil_iff.1 hrest.symm
      obtain ⟨name', hname', hd⟩ := ih [name] (Tree.parameters?_of_name? hfirst)
      obtain rfl := List.singleton_inj.1 hname'
      exact hd.lastName
  | argument first comma rest ih ih' =>
    intro names h
    cases names with
    | nil => cases h
    | cons name names =>
      obtain ⟨hfirst, hrest⟩ := List.cons.inj h
      obtain ⟨name', hname', hd⟩ := ih [name] (Tree.parameters?_of_name? hfirst)
      obtain rfl := List.singleton_inj.1 hname'
      exact hd.moreNames comma.property (ih' names hrest)
  | _ => trivial

end Phrase

namespace Derives

theorem primary_of_isAssignable {n : Nat} (h : Derives source (.operation n) ks e)
    (ha : e.isAssignable) : Derives source .primary ks e := by
  obtain ⟨p, hp, rfl, rfl⟩ := h
  exact Phrase.primary_of_isAssignable p hp ha

theorem parameters {n : Nat} {names : List String} (h : Derives source (.operation n) ks e)
    (hnames : Reader.parameters? e = some names) : Derives source .parameters ks names := by
  obtain ⟨p, hp, rfl, rfl⟩ := h
  obtain ⟨name, rfl, hd⟩ := p.named names hnames
  exact hd.oneParameter

theorem names {names : List String} (h : Derives source .arguments ks es)
    (hnames : es.map Tree.name? = names.map some) : Derives source .names ks names := by
  obtain ⟨p, hp, rfl, rfl⟩ := h
  exact p.named names hnames

end Derives

end Offside.OneLine
