import RowScript.Proofs.ScriptRanges
import RowScript.Proofs.Success
import RowScript.Script.Terms

/-!
# The ranges of a term

A term shares the ranges of the expression it stands for, with two exceptions. A local declaration
does not cover its body, and the fields of an object all have the range of the whole object.
-/

namespace RowScript

open Term List

/-- Where a term stands in the one around it: as a part with a range of its own, as the
body of a function or declaration, or as the record that a field of an object extends. -/
inductive Place where
  | part
  | body
  | record (loc : Loc)
deriving DecidableEq

namespace Term

mutual

/-- All parts of the term lie between two positions, in order and with something between
any two. The parts of a term with a range lie in that range. -/
def Laid (place : Place) (lo hi : Position) : Term → Prop
  | .reference _ loc => loc = .synthetic ∨ loc.Inside ⟨lo, hi⟩
  | .function param body _ loc =>
    loc.Inside ⟨lo, hi⟩ ∧ ∃ start, loc.start ≤ start ∧
      (∀ p ∈ param, p.loc.Inside loc ∧ p.loc.stop < start) ∧ Laid .body start loc.stop body
  | .application func arg loc =>
    loc.Inside ⟨lo, hi⟩ ∧ ∃ stop start, stop < start ∧ loc.start ≤ start ∧ stop ≤ loc.stop ∧
      Laid .part loc.start stop func ∧ Laid .body start loc.stop arg
  | .letIn _ value body nameLoc _ =>
    place = .body ∧ nameLoc.Inside ⟨lo, hi⟩ ∧ ∃ start stop next,
      nameLoc.stop < start ∧ stop < next ∧ stop ≤ hi ∧ nameLoc.stop < next ∧
        Laid .part start stop value ∧ Laid .body next hi body
  | .conditional condition consequence alternative loc =>
    loc.Inside ⟨lo, hi⟩ ∧ ∃ first start stop last, first < start ∧ stop < last ∧
      first ≤ loc.stop ∧ loc.start ≤ start ∧ start ≤ stop ∧ stop ≤ loc.stop ∧
        Laid .part loc.start first condition ∧ Laid .part start stop consequence ∧
          Laid .part last loc.stop alternative
  | .boolean loc | .number loc | .string loc => loc.Inside ⟨lo, hi⟩
  | .unit loc => place = .body ∨ loc.Inside ⟨lo, hi⟩
  | .emptyRecord loc => (∃ outer, place = .record outer) ∨ loc.Inside ⟨lo, hi⟩
  | .recordExtend _ value record loc =>
    (place = .record loc ∧ ∃ stop start, stop < start ∧ stop ≤ hi ∧ lo ≤ start ∧
      Laid (.record loc) lo stop record ∧ Laid .part start hi value) ∨
    (loc.Inside ⟨lo, hi⟩ ∧ ∃ stop start, stop < start ∧ stop ≤ loc.stop ∧ loc.start ≤ start ∧
      Laid (.record loc) loc.start stop record ∧ Laid .part start loc.stop value)
  | .recordRestrict _ record loc | .fieldAccess _ record loc =>
    loc.Inside ⟨lo, hi⟩ ∧ Laid .part loc.start loc.stop record
  | .array elements loc => loc.Inside ⟨lo, hi⟩ ∧ AllLaid loc.start loc.stop elements

/-- Terms between two positions, with something between any two. -/
def AllLaid (lo hi : Position) : List Term → Prop
  | [] => True
  | term :: rest => ∃ stop start, stop < start ∧ stop ≤ hi ∧ lo ≤ start ∧
    Laid .part lo stop term ∧ AllLaid start hi rest

end

attribute [local grind =] Laid

theorem Laid.mono {place : Place} {lo hi lo' hi' : Position} (hlo : lo' ≤ lo) (hhi : hi ≤ hi') :
    {term : Term} → term.Laid place lo hi → term.Laid place lo' hi'
  | .reference .., h => by grind
  | .function .., h => by grind
  | .application .., h => by grind
  | .letIn _ _ body _ _, h => by
    obtain ⟨hplace, hname, start, stop, next, h₁, h₂, h₃, h₄, hvalue, hbody⟩ := h
    exact ⟨hplace, by grind, start, stop, next, h₁, h₂, by order, h₄, hvalue,
      Laid.mono (le_refl _) hhi hbody⟩
  | .conditional .., h => by grind
  | .boolean .., h => by grind
  | .number .., h => by grind
  | .string .., h => by grind
  | .unit .., h => by grind
  | .emptyRecord .., h => by grind
  | .recordExtend _ value record _, h => by
    obtain ⟨hplace, stop, start, h₁, h₂, h₃, hrecord, hvalue⟩ | h := h
    · exact .inl ⟨hplace, stop, start, h₁, by order, by order, Laid.mono hlo (le_refl _) hrecord,
        Laid.mono (le_refl _) hhi hvalue⟩
    · exact .inr (by grind)
  | .recordRestrict .., h => by grind
  | .fieldAccess .., h => by grind
  | .array .., h => by grind

variable {lo hi : Position} {term : Term} {loc : Loc}

section

variable (h : term.Laid .part lo hi)

include h

/-- A part has a range of its own, unless it was not written down. -/
theorem Laid.loc_inside : term.loc = .synthetic ∨ term.loc.Inside ⟨lo, hi⟩ := by
  cases term <;> grind [loc]

/-- A part that was written down lies in its own range. -/
theorem Laid.tight :
    (∃ name, term = .reference name .synthetic) ∨
      term.Laid .part term.loc.start term.loc.stop := by
  cases term <;> grind [loc]

theorem Laid.toBody : term.Laid .body lo hi := by
  cases term <;> grind

/-- A part behind the start of an object may stand as the record that is extended. -/
theorem Laid.toRecord : term.Laid (.record loc) lo hi := by
  cases term <;> grind

end

/-- An object that is complete is a part with its range. -/
theorem Laid.toPart {key : String} {value record : Term} (hordered : loc.Ordered)
    (h : (Term.recordExtend key value record loc).Laid (.record loc) loc.start loc.stop) :
    (Term.recordExtend key value record loc).Laid .part loc.start loc.stop := by
  grind

end Term

theorem Position.exists_lt (position : Position) : ∃ other : Position, other < position :=
  ⟨⟨position.line - 1, 0⟩, .inl (Int.sub_one_lt_of_le (Int.le_refl _))⟩

theorem Position.exists_gt (position : Position) : ∃ other : Position, position < other :=
  ⟨⟨position.line + 1, 0⟩, .inl (Int.lt_succ _)⟩

theorem Literal.laid_toTerm {lit : Literal} {term : Term} (hordered : lit.loc.Ordered)
    (hterm : lit.toTerm = .ok term) : term.Laid .part lit.loc.start lit.loc.stop := by
  have hinside := Loc.Inside.refl hordered
  unfold Literal.toTerm at hterm
  split at hterm
  · obtain rfl := Except.ok.inj hterm
    exact hinside
  · obtain rfl := Except.ok.inj hterm
    exact hinside
  · obtain rfl := Except.ok.inj hterm
    exact hinside
  · cases hterm

variable {loc range : Loc} {expression : Expr}

theorem Property.inside_of_mem {properties : List Property}
    (hlaid : Property.AllLaid range properties) {property : Property}
    (hproperty : property ∈ properties) : property.loc.Inside range := by
  induction properties with
  | nil => cases hproperty
  | cons first rest ih =>
    obtain rfl | hproperty := mem_cons.1 hproperty
    · exact hlaid.1.1
    · exact ih hlaid.2.2 hproperty

theorem Expr.inside_of_mem {expressions : List Expr} (hlaid : Expr.AllLaid range expressions)
    (hexpression : expression ∈ expressions) : expression.loc.Inside range := by
  induction expressions with
  | nil => cases hexpression
  | cons first rest ih =>
    obtain rfl | hexpression := mem_cons.1 hexpression
    · exact hlaid.1.1
    · exact ih hlaid.2.2 hexpression

/-- Behind an expression there is a position where all later ones may start. -/
theorem Expr.exists_start_of_before {rest : List Expr}
    (hbefore : ∀ other ∈ rest, expression.loc.Before other.loc) (hrest : Expr.AllLaid range rest) :
    ∃ start, expression.loc.stop < start ∧ ∀ other ∈ rest, start ≤ other.loc.start := by
  cases rest with
  | nil =>
    obtain ⟨start, hstart⟩ := expression.loc.stop.exists_gt
    exact ⟨start, hstart, by simp⟩
  | cons next rest =>
    obtain ⟨⟨hinside, hothers⟩, -, -⟩ := hrest
    refine ⟨next.loc.start, hbefore next mem_cons_self, fun other hother => ?_⟩
    obtain rfl | hother := mem_cons.1 hother
    · exact le_refl _
    · have := hothers other hother
      grind

theorem Expr.arrow_toTerm {params : List Identifier} {body : Body} {term : Term}
    (hterm : (Expr.arrow loc params body).toTerm = .ok term) :
    ∃ param body', body.toTerm = .ok body' ∧ term = .function param body' none loc ∧
      ∀ p ∈ param, ∃ id ∈ params, p.loc = id.loc := by
  match params with
  | [] =>
    obtain ⟨body', hbody', hterm⟩ := Except.bind_eq_ok.1 hterm
    exact ⟨none, body', hbody', (Except.ok.inj hterm).symm, by simp⟩
  | [param] =>
    obtain ⟨body', hbody', hterm⟩ := Except.bind_eq_ok.1 hterm
    exact ⟨_, body', hbody', (Except.ok.inj hterm).symm, by simp⟩
  | _ :: _ :: _ => cases hterm

theorem Term.Laid.function {param : Option Param} {body : Term} {start : Position}
    {inner : Loc} (hbody : body.Laid .body start inner.stop) (hinner : inner.Inside loc)
    (hstart : inner.start ≤ start)
    (hparam : ∀ p ∈ param, p.loc.Inside loc ∧ p.loc.stop < start) :
    (Term.function param body none loc).Laid .part loc.start loc.stop := by
  rw [Laid]
  exact ⟨.refl hinner.outer, start, le_trans hinner.start hstart, hparam,
    hbody.mono (le_refl _) hinner.stop⟩

theorem Term.Laid.apply {func arg : Term} {a b : Loc} (hfunc : func.Laid .part a.start a.stop)
    (ha : a.Inside loc) (hb : b.Inside loc) (hbefore : a.Before b)
    (harg : arg.Laid .part b.start b.stop) :
    (Term.application func arg loc).Laid .part loc.start loc.stop := by
  rw [Laid]
  exact ⟨.refl ha.outer, _, _, hbefore, hb.start, ha.stop, hfunc.mono ha.start (le_refl _),
    (harg.mono (le_refl _) hb.stop).toBody⟩

/-- A function without an argument: the unit that it is applied to is not written down. -/
theorem Term.Laid.call {func : Term} {a : Loc} (hfunc : func.Laid .part a.start a.stop)
    (ha : a.Inside loc) :
    (Term.application func (.unit loc) loc).Laid .part loc.start loc.stop := by
  obtain ⟨start, hstart⟩ := a.stop.exists_gt
  rw [Laid]
  refine ⟨.refl ha.outer, _, start, hstart, by grind, ha.stop, hfunc.mono ha.start (le_refl _), ?_⟩
  rw [Laid]
  exact .inl rfl

theorem Term.Laid.choose {condition consequence alternative : Term} {a b c : Loc}
    (ha : a.Inside loc) (hb : b.Inside loc) (hc : c.Inside loc) (hab : a.Before b)
    (hbc : b.Before c) (hcondition : condition.Laid .part a.start a.stop)
    (hconsequence : consequence.Laid .part b.start b.stop)
    (halternative : alternative.Laid .part c.start c.stop) :
    (Term.conditional condition consequence alternative loc).Laid .part loc.start loc.stop := by
  rw [Laid]
  exact ⟨.refl ha.outer, _, _, _, _, hab, hbc, ha.stop, hb.start, hb.ordered, hb.stop,
    hcondition.mono ha.start (le_refl _), hconsequence, halternative.mono (le_refl _) hc.stop⟩

/-- The left operand of an operator is the argument of a function that is not written down. -/
theorem Term.Laid.operate {left : Term}
    (hleft : left.Laid .part loc.start loc.stop) (hordered : loc.Ordered) :
    (Term.application (.reference arithmeticFunction .synthetic) left loc).Laid .part loc.start
      loc.stop := by
  obtain ⟨stop, hstop⟩ := loc.start.exists_lt
  rw [Laid]
  refine ⟨.refl hordered, stop, _, hstop, le_refl _, by grind, ?_, hleft.toBody⟩
  rw [Laid]
  exact .inl rfl

mutual

/-- The term of an expression lies in the range of the expression. -/
theorem Expr.laid_toTerm (expr : Expr) (hlaid : expr.Laid) {term : Term}
    (hterm : expr.toTerm = .ok term) : term.Laid .part expr.loc.start expr.loc.stop := by
  cases expr with
  | identifier id =>
    obtain rfl := Except.ok.inj hterm
    grind [Expr.Laid, Expr.loc, Laid]
  | literal lit =>
    rw [Expr.Laid] at hlaid
    exact lit.laid_toTerm hlaid hterm
  | arrow loc params body =>
    rw [Expr.Laid] at hlaid
    obtain ⟨hparams, hinside, hbody⟩ := hlaid
    obtain ⟨param, body', hbody', rfl, hparam⟩ := Expr.arrow_toTerm hterm
    obtain ⟨start, hstart, hlaid⟩ := Body.laid_toTerm body hbody hbody'
    refine hlaid.function hinside hstart fun p hp => ?_
    obtain ⟨id, hid, hloc⟩ := hparam p hp
    have hbefore := hparams id hid
    grind [Expr.loc]
  | conditional loc test consequent alternate =>
    rw [Expr.Laid] at hlaid
    obtain ⟨⟨h₁, h₂, h₃⟩, ⟨h₄, h₅⟩, htest, hconsequent, halternate⟩ := hlaid
    rw [Expr.toTerm] at hterm
    obtain ⟨condition, hcondition, hterm⟩ := Except.bind_eq_ok.1 hterm
    obtain ⟨consequence, hconsequence, hterm⟩ := Except.bind_eq_ok.1 hterm
    obtain ⟨alternative, halternative, hterm⟩ := Except.bind_eq_ok.1 hterm
    obtain rfl := Except.ok.inj hterm
    exact .choose h₁ h₂ h₃ h₄ h₅ (Expr.laid_toTerm test htest hcondition)
      (Expr.laid_toTerm consequent hconsequent hconsequence)
      (Expr.laid_toTerm alternate halternate halternative)
  | binary loc operator left right =>
    rw [Expr.Laid] at hlaid
    obtain ⟨hleftInside, hrightInside, hbefore, hleft, hright⟩ := hlaid
    rw [Expr.toTerm] at hterm
    split at hterm
    · obtain ⟨leftTerm, hleftTerm, hterm⟩ := Except.bind_eq_ok.1 hterm
      obtain ⟨rightTerm, hrightTerm, hterm⟩ := Except.bind_eq_ok.1 hterm
      obtain rfl := Except.ok.inj hterm
      have hleft := (Expr.laid_toTerm left hleft hleftTerm).operate hleftInside.ordered
      exact hleft.apply hleftInside hrightInside hbefore (Expr.laid_toTerm right hright hrightTerm)
    · cases hterm
  | unary loc operator argument => cases hterm
  | call loc callee arguments =>
    rw [Expr.Laid] at hlaid
    obtain ⟨hinside, hcallee, harguments, hbehind⟩ := hlaid
    match arguments with
    | [] =>
      obtain ⟨func, hfunc, hterm⟩ := Except.bind_eq_ok.1 hterm
      obtain rfl := Except.ok.inj hterm
      exact (Expr.laid_toTerm callee hcallee hfunc).call hinside
    | [argument] =>
      rw [Expr.toTerm] at hterm
      obtain ⟨arg, harg, hterm⟩ := Except.bind_eq_ok.1 hterm
      obtain ⟨func, hfunc, hterm⟩ := Except.bind_eq_ok.1 hterm
      obtain rfl := Except.ok.inj hterm
      rw [Expr.AllLaid] at harguments
      obtain ⟨⟨hargInside, -⟩, hargument, -⟩ := harguments
      exact (Expr.laid_toTerm callee hcallee hfunc).apply hinside hargInside
        (hbehind argument mem_cons_self) (Expr.laid_toTerm argument hargument harg)
    | _ :: _ :: _ => cases hterm
  | member loc object property =>
    rw [Expr.Laid] at hlaid
    obtain ⟨hobjectInside, hpropertyInside, -, hobject⟩ := hlaid
    obtain ⟨record, hrecord, hterm⟩ := Except.bind_eq_ok.1 hterm
    obtain rfl := Except.ok.inj hterm
    have hobject := (Expr.laid_toTerm object hobject hrecord).mono hobjectInside.start
      hobjectInside.stop
    rw [Laid]
    exact ⟨by grind [Expr.loc], hobject⟩
  | index loc object property => cases hterm
  | object loc properties =>
    rw [Expr.Laid] at hlaid
    obtain ⟨hordered, hproperties⟩ := hlaid
    obtain ⟨stop, hstop⟩ := loc.start.exists_lt
    refine Property.laid_ontoRecord loc properties hordered hproperties stop
      (fun property hproperty => ?_) ?_ ?_ hterm
    · exact lt_of_lt_of_le hstop (Property.inside_of_mem hproperties hproperty).start
    · rw [Laid]
      exact .inl ⟨loc, rfl⟩
    · rw [Laid]
      exact .inr (.refl hordered)
  | array loc elements =>
    rw [Expr.Laid] at hlaid
    obtain ⟨terms, hterms, hterm⟩ := Except.bind_eq_ok.1 hterm
    obtain rfl := Except.ok.inj hterm
    rw [Laid]
    obtain ⟨hordered, helements⟩ := hlaid
    exact ⟨.refl hordered, Expr.laid_toTerms elements helements
      (fun element helement => (Expr.inside_of_mem helements helement).start) hterms⟩
  | spread loc argument => cases hterm

theorem Expr.laid_toTerms (expressions : List Expr) {range : Loc}
    (hlaid : Expr.AllLaid range expressions) {start : Position}
    (hstart : ∀ expression ∈ expressions, start ≤ expression.loc.start) {terms : List Term}
    (hterms : Expr.toTerms expressions = .ok terms) : AllLaid start range.stop terms := by
  cases expressions with
  | nil =>
    obtain rfl := Except.ok.inj hterms
    rw [AllLaid]
    trivial
  | cons expression rest =>
    rw [Expr.AllLaid] at hlaid
    obtain ⟨⟨hinside, hbefore⟩, hexpression, hrest⟩ := hlaid
    rw [Expr.toTerms] at hterms
    obtain ⟨term, hterm, hterms⟩ := Except.bind_eq_ok.1 hterms
    obtain ⟨others, hothers, hterms⟩ := Except.bind_eq_ok.1 hterms
    obtain rfl := Except.ok.inj hterms
    have hterm := (Expr.laid_toTerm expression hexpression hterm).mono
      (hstart expression mem_cons_self) (le_refl _)
    have hle := hstart expression mem_cons_self
    obtain ⟨next, hnext, hrestStart⟩ := Expr.exists_start_of_before hbefore hrest
    rw [AllLaid]
    exact ⟨_, next, hnext, hinside.stop, by grind, hterm,
      Expr.laid_toTerms rest hrest hrestStart hothers⟩

theorem Property.laid_ontoRecord (loc : Loc) (properties : List Property) (hordered : loc.Ordered)
    (hlaid : Property.AllLaid loc properties) {record term : Term} {isFirst : Bool}
    (stop : Position) (hbehind : ∀ property ∈ properties, stop < property.loc.start)
    (hrecord : record.Laid (.record loc) loc.start stop)
    (hpart : record.Laid .part loc.start loc.stop)
    (hterm : Property.ontoRecord loc record isFirst properties = .ok term) :
    term.Laid .part loc.start loc.stop := by
  cases properties with
  | nil =>
    obtain rfl := Except.ok.inj hterm
    exact hpart
  | cons property rest =>
    rw [Property.AllLaid] at hlaid
    obtain ⟨⟨hinside, hbefore⟩, hproperty, hrest⟩ := hlaid
    rw [Property.ontoRecord] at hterm
    obtain ⟨extended, hextended, hterm⟩ := Except.bind_eq_ok.1 hterm
    have hnext := Property.laid_onto loc property hordered hproperty hinside
      (hbehind property mem_cons_self) hrecord hextended
    exact Property.laid_ontoRecord loc rest hordered hrest property.loc.stop hbefore hnext.1
      hnext.2 hterm

/-- A field extends the record by what stands behind the record. -/
theorem Property.laid_onto (loc : Loc) (property : Property) (hordered : loc.Ordered)
    (hlaid : property.Laid) (hinside : property.loc.Inside loc) {record term : Term}
    {isFirst : Bool} {stop : Position} (hbehind : stop < property.loc.start)
    (hrecord : record.Laid (.record loc) loc.start stop)
    (hterm : Property.onto loc record isFirst property = .ok term) :
    term.Laid (.record loc) loc.start property.loc.stop ∧
      term.Laid .part loc.start loc.stop := by
  cases property with
  | spread spreadLoc argument =>
    simp only [Property.onto] at hterm
    rw [Property.Laid] at hlaid
    obtain ⟨hargument, -, hlaid⟩ := hlaid
    split at hterm
    · have hargument' := hargument.trans hinside
      have hterm := Expr.laid_toTerm argument hlaid hterm
      exact ⟨hterm.toRecord.mono hargument'.start hargument.stop,
        hterm.mono hargument'.start hargument'.stop⟩
    · cases hterm
  | computed _ key value => cases hterm
  | field fieldLoc key value =>
    rw [Property.Laid] at hlaid
    obtain ⟨-, hvalueInside, hvalue⟩ := hlaid
    obtain ⟨found, hfound, hterm⟩ := Except.bind_eq_ok.1 hterm
    obtain rfl := Except.ok.inj hterm
    have hfound := (Expr.laid_toTerm value hvalue hfound).mono (le_refl _) hvalueInside.stop
    have hfield : (Term.recordExtend key.toText found record loc).Laid (.record loc) loc.start
        fieldLoc.stop := by
      rw [Laid]
      exact .inl ⟨rfl, stop, value.loc.start, by grind [Property.loc], by grind [Property.loc],
        by grind [Property.loc], hrecord, hfound⟩
    exact ⟨hfield, (hfield.mono (le_refl _) hinside.stop).toPart hordered⟩

theorem Body.laid_toTerm (body : Body) (hlaid : body.Laid) {term : Term}
    (hterm : body.toTerm = .ok term) :
    ∃ start, body.loc.start ≤ start ∧ term.Laid .body start body.loc.stop := by
  cases body with
  | expression inner =>
    rw [Body.Laid] at hlaid
    exact ⟨_, le_refl _, (Expr.laid_toTerm inner hlaid hterm).toBody⟩
  | block inner =>
    rw [Body.Laid] at hlaid
    exact Block.laid_toTerm inner hlaid hterm

theorem Block.laid_toTerm (block : Block) (hlaid : block.Laid) {term : Term}
    (hterm : block.toTerm = .ok term) :
    ∃ start, block.loc.start ≤ start ∧ term.Laid .body start block.loc.stop := by
  cases block with
  | mk loc statements =>
    rw [Block.Laid] at hlaid
    obtain ⟨start, hstart, -, hterm⟩ := Statement.laid_chain loc statements hlaid.2 hterm
    exact ⟨start, hstart, hterm⟩

/-- The declarations of a block and the value it returns stand one behind the other. -/
theorem Statement.laid_chain (loc : Loc) (statements : List Statement)
    (hlaid : Statement.AllLaid loc statements) {term : Term}
    (hterm : Statement.chain loc statements = .ok term) :
    ∃ start, loc.start ≤ start ∧ (∀ statement ∈ statements.head?, statement.loc.start < start) ∧
      term.Laid .body start loc.stop := by
  cases statements with
  | nil => cases hterm
  | cons statement rest =>
    rw [Statement.AllLaid] at hlaid
    obtain ⟨⟨hinside, hbehind⟩, hstatement, hrest⟩ := hlaid
    cases rest with
    | nil =>
      obtain ⟨start, hstart, hlaid⟩ := Statement.laid_returned statement hstatement hterm
      exact ⟨start, by grind, by simpa using hstart,
        hlaid.toBody.mono (le_refl _) hinside.stop⟩
    | cons next rest =>
      rw [Statement.chain] at hterm
      · obtain ⟨body, hbody, hterm⟩ := Except.bind_eq_ok.1 hterm
        obtain ⟨start, -, hstart, hbody⟩ := Statement.laid_chain loc (next :: rest) hrest hbody
        have hnext : statement.loc.stop < start :=
          lt_of_le_of_lt (hbehind next mem_cons_self) (hstart next rfl)
        obtain ⟨first, hfirst, hlaid⟩ := Statement.laid_around statement hstatement hinside.stop
          hnext hbody hterm
        exact ⟨first, by grind, by simpa using hfirst, hlaid⟩
      · nofun

theorem Statement.laid_returned (statement : Statement) (hlaid : statement.Laid) {term : Term}
    (hterm : statement.returned = .ok term) :
    ∃ start, statement.loc.start < start ∧ term.Laid .part start statement.loc.stop := by
  cases statement with
  | ret loc argument =>
    cases argument with
    | none => cases hterm
    | some argument =>
      rw [Statement.Laid] at hlaid
      obtain ⟨hinside, hbehind, hargument⟩ := hlaid
      exact ⟨_, hbehind, (Expr.laid_toTerm argument hargument hterm).mono (le_refl _)
        hinside.stop⟩
  | declaration | expression | block => cases hterm

theorem Statement.laid_around (statement : Statement) (hlaid : statement.Laid) {hi start : Position}
    (hstop : statement.loc.stop ≤ hi) (hstart : statement.loc.stop < start) {body term : Term}
    (hbody : body.Laid .body start hi) (hterm : statement.around body = .ok term) :
    ∃ first, statement.loc.start < first ∧ term.Laid .body first hi := by
  cases statement with
  | declaration loc keyword declarators =>
    match declarators with
    | [.mk declaratorLoc (.identifier id) (some init)] =>
      simp only [Statement.around] at hterm
      split at hterm
      · cases hterm
      · obtain ⟨value, hvalue, hterm⟩ := Except.bind_eq_ok.1 hterm
        obtain rfl := Except.ok.inj hterm
        simp only [Statement.Laid, Declarator.AllLaid, Declarator.Laid, Declarator.loc,
          DeclarationTarget.loc, Statement.loc] at hlaid hstop hstart ⊢
        obtain ⟨hordered, ⟨hinside, hbehind, -⟩, ⟨htarget, hinit, hbefore, hlaid⟩, -⟩ := hlaid
        have hvalue := Expr.laid_toTerm init hlaid hvalue
        refine ⟨id.loc.start, by grind, ?_⟩
        rw [Laid]
        exact ⟨rfl, by grind, _, _, start, hbefore, by grind, by grind, by grind, hvalue, hbody⟩
    | [] => cases hterm
    | [.mk _ (.identifier _) none] => cases hterm
    | [.mk _ (.objectPattern _) _] => cases hterm
    | [.mk _ (.arrayPattern _) _] => cases hterm
    | _ :: _ :: _ =>
      rw [Statement.around] at hterm
      · cases hterm
      · nofun
  | ret | expression | block => cases hterm

end

end RowScript
