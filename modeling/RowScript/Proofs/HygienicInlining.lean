import Mathlib.Logic.Relation
import RowScript.Proofs.ContextImages
import RowScript.Proofs.InferenceCalls
import RowScript.Proofs.InferenceSoundness

/-!
# Inlining captures no names

Inlining renames nothing. Where inference succeeds it is the replacement that renames binders: the
names free in the value are bound in the context, and the names bound in the body are not.
-/

namespace RowScript

open Context Term List

namespace Term

/-- The length of the longest name. -/
def longest : List String → Nat
  | [] => 0
  | name :: rest => max name.length (longest rest)

/-- A name that is longer than all others. -/
def freshName (taken : List String) : String :=
  String.ofList (replicate (longest taken + 1) '_')

theorem length_le_longest {name : String} {names : List String} (hname : name ∈ names) :
    name.length ≤ longest names := by
  induction names with
  | nil => cases hname
  | cons other rest ih =>
    rcases mem_cons.mp hname with rfl | hrest
    · exact Nat.le_max_left _ _
    · exact Nat.le_trans (ih hrest) (Nat.le_max_right _ _)

theorem freshName_not_mem (taken : List String) : freshName taken ∉ taken := by
  intro hmem
  have hle := length_le_longest hmem
  rw [freshName, String.length_ofList, length_replicate] at hle
  omega

namespace Copies

/-- The names that stand in the place of a name. -/
def namesFor (copies : Copies) (name : String) : List String :=
  ((copies name).map freeNames).getD [name]

/-- The names that come in with the copies for some names. -/
def incoming (copies : Copies) (names : List String) : List String :=
  names.flatMap fun name => ((copies name).map freeNames).getD []

/-- The name to bind in the place of a binder, and the copies inside of it. A binder whose name
comes in with a copy is renamed, together with its uses. -/
def under (copies : Copies) (binder : String) (loc : Loc) (names : List String) :
    String × Copies :=
  let inside := copies.without (· = binder)
  let incoming := inside.incoming names
  if incoming.contains binder then
    let fresh := freshName (incoming ++ names)
    (fresh, inside.insert binder (.reference fresh loc))
  else (binder, inside)

end Copies

mutual

/-- Puts copies in the places of free names, and renames the binders that would capture a name
of a copy. -/
def substitute (copies : Copies) : Term → Term
  | .reference name loc => (copies name).getD (.reference name loc)
  | .function none body ascribed loc => .function none (substitute copies body) ascribed loc
  | .function (some param) body ascribed loc =>
    .function (some ⟨(copies.under param.name param.loc body.freeNames).1, param.loc⟩)
      (substitute (copies.under param.name param.loc body.freeNames).2 body) ascribed loc
  | .application func arg loc => .application (substitute copies func) (substitute copies arg) loc
  | .letIn name value body nameLoc loc =>
    .letIn (copies.under name nameLoc body.freeNames).1 (substitute copies value)
      (substitute (copies.under name nameLoc body.freeNames).2 body) nameLoc loc
  | .conditional condition consequence alternative loc =>
    .conditional (substitute copies condition) (substitute copies consequence)
      (substitute copies alternative) loc
  | .recordExtend key value record loc =>
    .recordExtend key (substitute copies value) (substitute copies record) loc
  | .recordRestrict key record loc => .recordRestrict key (substitute copies record) loc
  | .fieldAccess key record loc => .fieldAccess key (substitute copies record) loc
  | .array elements loc => .array (substituteAll copies elements) loc
  | .boolean loc => .boolean loc
  | .number loc => .number loc
  | .string loc => .string loc
  | .unit loc => .unit loc
  | .emptyRecord loc => .emptyRecord loc

def substituteAll (copies : Copies) : List Term → List Term
  | [] => []
  | term :: rest => substitute copies term :: substituteAll copies rest

end

variable {copies : Copies} {x y : String} {value : Term}

theorem substituteAll_eq_map (terms : List Term) :
    substituteAll copies terms = terms.map (substitute copies) := by
  induction terms with
  | nil => rfl
  | cons term rest ih => rw [substituteAll, ih, map_cons]

namespace Copies

variable {binder n : String} {loc : Loc} {names : List String}

theorem namesFor_without (hn : n ≠ binder) :
    (copies.without (· = binder)).namesFor n = copies.namesFor n := by
  simp [namesFor, without, hn]

/-- What stands in the place of a name comes in with a copy or is the name itself. -/
theorem mem_incoming_or_eq (hn : n ∈ names) (hy : y ∈ copies.namesFor n) :
    y ∈ copies.incoming names ∨ y = n := by
  unfold namesFor at hy
  cases hcopy : copies n with
  | none => exact .inr (by simpa [hcopy] using hy)
  | some copy =>
    refine .inl (mem_flatMap.mpr ⟨n, hn, ?_⟩)
    simpa [hcopy] using hy

/-- Inside a binder a name of the body is replaced as outside, and what is put in for it is not
captured. The name that is bound stands for itself. -/
theorem mem_namesFor_under (hn : n ∈ names) (loc : Loc) :
    (y ∈ (copies.under binder loc names).2.namesFor n ∧ y ≠ (copies.under binder loc names).1) ↔
      n ≠ binder ∧ y ∈ copies.namesFor n := by
  unfold under
  simp only
  by_cases hbinder : n = binder
  · subst hbinder
    split <;> simp [namesFor, insert, without, freeNames]
  · have hcomes : y ∈ copies.namesFor n →
        y ∈ (copies.without (· = binder)).incoming names ∨ y = n := fun hy =>
      mem_incoming_or_eq hn (by rwa [namesFor_without hbinder])
    split
    · have hinsert {value : Term} : ((copies.without (· = binder)).insert binder value).namesFor n =
          copies.namesFor n := by simp [namesFor, insert, without, hbinder]
      rw [hinsert]
      refine ⟨fun h => ⟨hbinder, h.1⟩, fun h => ⟨h.2, ?_⟩⟩
      rintro rfl
      refine freshName_not_mem ((copies.without (· = binder)).incoming names ++ names)
        (mem_append.mpr ((hcomes h.2).imp_right fun heq => ?_))
      exact Eq.mpr (congrArg (· ∈ names) heq) hn
    · rename_i hincoming
      rw [namesFor_without hbinder]
      refine ⟨fun h => ⟨hbinder, h.1⟩, fun h => ⟨h.2, ?_⟩⟩
      rintro rfl
      rcases hcomes h.2 with hy | rfl
      · exact hincoming (by simpa using hy)
      · exact hbinder rfl

/-- The names free below a binder, and not bound by it. -/
theorem exists_mem_namesFor_under (copies : Copies) (binder : String) (loc : Loc)
    (names : List String) :
    ((∃ n ∈ names, y ∈ (copies.under binder loc names).2.namesFor n) ∧
        y ≠ (copies.under binder loc names).1) ↔
      ∃ n, (n ∈ names ∧ n ≠ binder) ∧ y ∈ copies.namesFor n := by
  constructor
  · rintro ⟨⟨n, hn, hy⟩, hne⟩
    have hname := (mem_namesFor_under hn loc).mp ⟨hy, hne⟩
    exact ⟨n, ⟨hn, hname.1⟩, hname.2⟩
  · rintro ⟨n, ⟨hn, hname⟩, hy⟩
    have hinside := (mem_namesFor_under hn loc).mpr ⟨hname, hy⟩
    exact ⟨⟨n, hn, hinside.1⟩, hinside.2⟩

/-- The names that stand in the places of names when one of them is replaced. -/
theorem exists_mem_namesFor_insert :
    (∃ n ∈ names, y ∈ (empty.insert x value).namesFor n) ↔
      y ∈ names ∧ y ≠ x ∨ x ∈ names ∧ y ∈ value.freeNames := by
  have hself : (empty.insert x value).namesFor x = value.freeNames := by simp [namesFor, insert]
  have hother {n : String} (hn : n ≠ x) : (empty.insert x value).namesFor n = [n] := by
    simp [namesFor, insert, empty, hn]
  constructor
  · rintro ⟨n, hn, hy⟩
    by_cases hname : n = x
    · subst hname
      exact .inr ⟨hn, hself ▸ hy⟩
    · rw [hother hname, mem_singleton] at hy
      exact .inl ⟨hy ▸ hn, hy ▸ hname⟩
  · rintro (⟨hy, hne⟩ | ⟨hx, hy⟩)
    · exact ⟨y, hy, by rw [hother hne]; exact mem_singleton_self y⟩
    · exact ⟨x, hx, hself ▸ hy⟩

/-- A binder whose name is free in no copy keeps its name. -/
theorem under_eq (hbinder : ∀ n copy, copies n = some copy → binder ∉ copy.freeNames) (loc : Loc)
    (names : List String) :
    copies.under binder loc names = (binder, copies.without (· = binder)) := by
  refine if_neg fun hincoming => ?_
  obtain ⟨n, -, hn⟩ := mem_flatMap.mp (contains_iff_mem.mp hincoming)
  cases hcopy : copies.without (· = binder) n with
  | none => simp [hcopy] at hn
  | some copy => exact hbinder n copy (eq_some_of_without hcopy) (by simpa [hcopy] using hn)

end Copies

/-- No name is captured: the free names are those that stand in the places of free names. -/
theorem mem_freeNames_substitute (term : Term) :
    y ∈ (term.substitute copies).freeNames ↔ ∃ n ∈ term.freeNames, y ∈ copies.namesFor n := by
  induction term using induct generalizing copies with
  | reference name loc =>
    cases hcopy : copies name <;> simp [substitute, freeNames, Copies.namesFor, hcopy]
  | boolean | number | string | unit | emptyRecord => simp [substitute, freeNames]
  | function param body ascribed loc ih =>
    cases param with
    | none => simpa [substitute, freeNames] using ih
    | some param =>
      have hother (n m : String) : (!decide (n = m)) = true ↔ m ≠ n := by
        rw [Bool.not_eq_true', decide_eq_false_iff_not, ne_comm]
      simp only [substitute, freeNames, mem_filter, ih, Option.any_some, hother]
      exact copies.exists_mem_namesFor_under param.name param.loc body.freeNames
  | application a b _ iha ihb | recordExtend _ a b _ iha ihb =>
    simp only [substitute, freeNames, mem_append, iha, ihb, or_and_right, exists_or]
  | conditional a b c _ iha ihb ihc =>
    simp only [substitute, freeNames, mem_append, iha, ihb, ihc, or_and_right, exists_or]
  | recordRestrict _ a _ ih | fieldAccess _ a _ ih => exact ih
  | array elements loc ih =>
    simp only [substitute, substituteAll_eq_map, freeNames, mem_freeNamesIn, mem_map]
    constructor
    · rintro ⟨_, ⟨element, helement, rfl⟩, hy⟩
      obtain ⟨n, hn, hy⟩ := (ih element helement).mp hy
      exact ⟨n, ⟨element, helement, hn⟩, hy⟩
    · rintro ⟨n, ⟨element, helement, hn⟩, hy⟩
      exact ⟨_, ⟨element, helement, rfl⟩, (ih element helement).mpr ⟨n, hn, hy⟩⟩
  | letIn name a b nameLoc _ iha ihb =>
    simp only [substitute, freeNames, mem_append, mem_filter, iha, ihb,
      decide_eq_true_eq, or_and_right, exists_or]
    exact or_congr_right (copies.exists_mem_namesFor_under name nameLoc b.freeNames)

/-- Nothing is renamed if no name of a copy is bound in the term. -/
theorem substitute_eq_fill (term : Term)
    (hbinders : ∀ n copy, copies n = some copy → ∀ binder ∈ term.binders, binder ∉ copy.freeNames) :
    term.substitute copies = term.fill copies := by
  induction term using induct generalizing copies with
  | reference | boolean | number | string | unit | emptyRecord => rfl
  | function param body ascribed loc ih =>
    cases param with
    | none =>
      have hhides : copies.without (hides none) = copies := by
        funext n
        simp [Copies.without, hides]
      rw [substitute, fill, hhides, ih hbinders]
    | some param =>
      have hparam : copies.without (hides (some param)) = copies.without (· = param.name) := by
        funext n
        simp [Copies.without, hides, eq_comm]
      have hinside : substitute (copies.without (· = param.name)) body =
          fill (copies.without (· = param.name)) body := by
        refine ih fun n copy hn binder hbinder => ?_
        exact hbinders n copy (Copies.eq_some_of_without hn) binder
          (mem_cons_of_mem _ hbinder)
      rw [substitute, fill, hparam,
        Copies.under_eq fun n copy hn => hbinders n copy hn _ mem_cons_self, hinside]
  | application a b _ iha ihb | recordExtend _ a b _ iha ihb =>
    simp only [binders, forall_mem_append] at hbinders
    rw [substitute, fill, iha fun n copy hn => (hbinders n copy hn).1,
      ihb fun n copy hn => (hbinders n copy hn).2]
  | conditional a b c _ iha ihb ihc =>
    simp only [binders, forall_mem_append] at hbinders
    rw [substitute, fill, iha fun n copy hn => (hbinders n copy hn).1.1,
      ihb fun n copy hn => (hbinders n copy hn).1.2, ihc fun n copy hn => (hbinders n copy hn).2]
  | recordRestrict _ a _ ih | fieldAccess _ a _ ih => rw [substitute, fill, ih hbinders]
  | array elements loc ih =>
    rw [substitute, fill, substituteAll_eq_map, fillAll_eq_map]
    congr 1
    refine map_congr_left fun element helement =>
      ih element helement fun n copy hn b hb => ?_
    exact hbinders n copy hn b (mem_bindersIn.mpr ⟨element, helement, hb⟩)
  | letIn name a b nameLoc _ iha ihb =>
    simp only [binders, forall_mem_cons, forall_mem_append] at hbinders
    have hinside :
        substitute (copies.without (· = name)) b = fill (copies.without (· = name)) b :=
      ihb fun n copy hn => (hbinders n copy (Copies.eq_some_of_without hn)).2.2
    rw [substitute, fill, iha fun n copy hn => (hbinders n copy hn).2.1,
      Copies.under_eq fun n copy hn => (hbinders n copy hn).1, hinside]

/-- Replacing a name captures nothing if no name of the replacement is bound. -/
theorem replace_eq_substitute (body : Term)
    (hbinders : ∀ binder ∈ body.binders, binder ∉ value.freeNames) :
    body.replace x value = body.substitute (Copies.empty.insert x value) := by
  rw [replace_eq_fill, substitute_eq_fill]
  intro n copy hn
  unfold Copies.insert at hn
  split at hn <;> cases hn
  exact hbinders

/-- Inference of a term comes to another one. -/
abbrev Meets : Term → Term → Prop :=
  Relation.ReflTransGen fun caller called => called ∈ caller.calls

/-- No name that is free in an inlined value is bound in the body. -/
def InlinesApart : Term → Prop
  | .letIn _ value body _ _ =>
    value.isValue = true → ∀ binder ∈ body.binders, binder ∉ value.freeNames
  | _ => True

/-- All inlining on the way is without capture. -/
def IsHygienic (term : Term) : Prop := ∀ met, term.Meets met → met.InlinesApart

variable {term : Term}

theorem isHygienic_of_calls (hown : term.InlinesApart)
    (hcalls : ∀ called ∈ term.calls, called.IsHygienic) : term.IsHygienic := by
  intro met hmeets
  obtain rfl | ⟨called, hcalled, hmeets⟩ := hmeets.cases_head
  · exact hown
  · exact hcalls called hcalled met hmeets

theorem isHygienic_function {param : Option Param} {body : Term} (hbody : body.IsHygienic)
    (ascribed : Option Ty) (loc : Loc) : (Term.function param body ascribed loc).IsHygienic := by
  have hplain : (function param body none loc).IsHygienic :=
    isHygienic_of_calls trivial (by simpa [calls] using hbody)
  cases ascribed with
  | none => exact hplain
  | some ascribed => exact isHygienic_of_calls trivial (by simpa [calls] using ⟨hbody, hplain⟩)

theorem isHygienic_recordExtend {key : String} {record : Term} (hvalue : value.IsHygienic)
    (hrecord : record.IsHygienic) (loc : Loc) :
    (Term.recordExtend key value record loc).IsHygienic := by
  have hrestrict : (recordRestrict key record loc).IsHygienic :=
    isHygienic_of_calls trivial (by simpa [calls] using hrecord)
  exact isHygienic_of_calls trivial (by simpa [calls] using ⟨hrecord, hrestrict, hvalue⟩)

end Term

namespace Inference

/-- What inference checks of the names of a term: free ones stand for values, bound ones can be
bound, and inlining captures none. -/
structure WellBound (ctx : Context) (term : Term) : Prop where
  free : ∀ name ∈ term.freeNames, ∃ type, ctx.value? name = some type
  bound : ∀ name ∈ term.binders, (!reservedWords.contains name && !ctx.binds name)
  hygienic : term.IsHygienic

variable {ctx : Context} {term body : Term} {solve : Context → Term → CheckM Solved}
  {checker final : Checker} {inferred : Inferred}

/-- A term that has all its names in parts that stand in the same context. -/
theorem WellBound.of_parts {parts : List Term} (hparts : ∀ part ∈ parts, WellBound ctx part)
    (hfree : ∀ n ∈ term.freeNames, ∃ part ∈ parts, n ∈ part.freeNames)
    (hbound : ∀ n ∈ term.binders, ∃ part ∈ parts, n ∈ part.binders) (hhygienic : term.IsHygienic) :
    WellBound ctx term where
  free n hn := by
    obtain ⟨part, hpart, hn⟩ := hfree n hn
    exact (hparts part hpart).free n hn
  bound n hn := by
    obtain ⟨part, hpart, hn⟩ := hbound n hn
    exact (hparts part hpart).bound n hn
  hygienic := hhygienic

theorem binds_of_value? {name : String} {type : Ty} (hvalue : ctx.value? name = some type) :
    ctx.binds name := by
  unfold value? at hvalue
  unfold binds
  split at hvalue
  · rename_i hfind
    rw [hfind]
    rfl
  · rename_i hfind
    rw [hfind]
    rfl
  · cases hvalue

section Body

variable {stamp : Nat} {name n : String} {type : Ty} {loc : Loc}
  (hbody : WellBound (⟨stamp, name, .typed type loc false⟩ :: ctx) body)

include hbody

/-- Names that are free in a body, apart from the one that is bound for it. -/
theorem WellBound.free_outside (hn : n ∈ body.freeNames) (hne : n ≠ name) :
    ∃ type, ctx.value? n = some type := by
  obtain ⟨found, hfound⟩ := hbody.free n hn
  rw [value?_cons_typed, if_neg hne] at hfound
  exact ⟨found, hfound⟩

theorem WellBound.bound_outside (hn : n ∈ body.binders) :
    (!reservedWords.contains n && !ctx.binds n) := by
  have hbound := hbody.bound n hn
  rw [binds_cons] at hbound
  simp only [Bool.not_or, Bool.and_eq_true] at hbound ⊢
  exact ⟨hbound.1, hbound.2.2⟩

theorem WellBound.function {param : Param} (hname : param.name = name) {nameLoc : Option Loc}
    (hbindable : ctx.checkBindable name nameLoc = .ok ()) (ascribed : Option Ty) (whole : Loc) :
    WellBound ctx (.function (some param) body ascribed whole) where
  free n hn := by
    simp only [freeNames, mem_filter, Option.any_some, Bool.not_eq_true',
      decide_eq_false_iff_not] at hn
    exact hbody.free_outside hn.1 fun heq => hn.2 (hname.trans heq.symm)
  bound n hn := by
    rcases mem_cons.mp hn with rfl | hn
    · exact checkBindable_iff.mp (hname ▸ hbindable)
    · exact hbody.bound_outside hn
  hygienic := isHygienic_function hbody.hygienic ascribed whole

end Body

/-- An inlined declaration: the value and the body with the value in it are inferred both. -/
theorem WellBound.letValue {name : String} {value : Term} {nameLoc loc : Loc}
    (hisValue : value.isValue) (hbindable : ctx.checkBindable name (some nameLoc) = .ok ())
    (hbody : WellBound ctx (body.replace name value)) (hvalue : WellBound ctx value) :
    WellBound ctx (.letIn name value body nameLoc loc) where
  free n hn := by
    simp only [freeNames, mem_append, mem_filter, decide_eq_true_eq] at hn
    obtain hn | ⟨hn, hne⟩ := hn
    · exact hvalue.free n hn
    · exact hbody.free n (mem_freeNames_replace hne body hn)
  bound n hn := by
    rw [binders, mem_cons, mem_append] at hn
    obtain rfl | hn | hn := hn
    · exact checkBindable_iff.mp hbindable
    · exact hvalue.bound n hn
    · exact hbody.bound n (mem_binders_replace body hn)
  hygienic := by
    refine isHygienic_of_calls (fun _ binder hbinder hfree => ?_) ?_
    · -- a name of the value stands for something, so nothing of that name is bound on the way
      obtain ⟨type, hfound⟩ := hvalue.free binder hfree
      have hbound := hbody.bound binder (mem_binders_replace body hbinder)
      rw [binds_of_value? hfound] at hbound
      simp at hbound
    · rw [calls, if_pos hisValue]
      simpa using ⟨hbody.hygienic, hvalue.hygienic⟩

/-- Solving succeeds only where names are bound well. -/
def SolvesWellBound (solve : Context → Term → CheckM Solved) : Prop :=
  ∀ ⦃ctx term checker solved final⦄, solve ctx term checker = .ok solved final → WellBound ctx term

theorem wellBound_elements (hsolve : SolvesWellBound solve) {elements : List Term}
    {solved : List Solved} (hall : SolvesAll solve ctx elements checker solved final) :
    ∀ element ∈ elements, WellBound ctx element := by
  intro element helement
  obtain ⟨_, _, _, hresult⟩ := hall.exists_of_mem element helement
  exact hsolve hresult

/-- One level of inference succeeds only where names are bound well, if solving does. -/
theorem wellBound_of_steps (hsolve : SolvesWellBound solve)
    (hsteps : Steps solve ctx term checker inferred final) : WellBound ctx term := by
  cases hsteps with
  | reference htype =>
    refine ⟨fun n hn => ?_, by simp [binders],
      isHygienic_of_calls trivial (by simp [calls])⟩
    obtain rfl := mem_singleton.mp hn
    exact ⟨_, value?_of_valueType htype⟩
  | boolean | number | string | unit | emptyRecord =>
    exact ⟨by simp [freeNames], by simp [binders],
      isHygienic_of_calls trivial (by simp [calls])⟩
  | thunk hbody | writtenThunk _ hbody =>
    have hbody := hsolve hbody
    exact .of_parts (forall_mem_singleton.mpr hbody) (by simp [freeNames])
      (by simp [binders]) (isHygienic_function hbody.hygienic _ _)
  | settled hbindable hbody | lettered hbindable hbody | written _ hbindable hbody =>
    exact (hsolve hbody).function rfl hbindable _ _
  | writtenGeneric _ hplain =>
    have hplain := hsolve hplain
    refine ⟨hplain.free, hplain.bound, isHygienic_function (fun met hmet => ?_) _ _⟩
    exact hplain.hygienic met (.head (by simp [calls]) hmet)
  | application hfunc harg =>
    have hparts := wellBound_elements hsolve (.pair hfunc harg)
    exact .of_parts hparts (by simp [freeNames]) (by simp [binders])
      (isHygienic_of_calls trivial fun called hcalled => (hparts called hcalled).hygienic)
  | conditional hcondition hconsequence halternative =>
    have hparts := wellBound_elements hsolve
      (.cons hcondition (.pair hconsequence halternative))
    exact .of_parts hparts (by simp [freeNames]) (by simp [binders])
      (isHygienic_of_calls trivial fun called hcalled => (hparts called hcalled).hygienic)
  | letValue hvalue hbindable hbody hbound =>
    exact .letValue hvalue hbindable (hsolve hbody) (hsolve hbound)
  | letOnce hvalue hbound _ hbindable hbody =>
    have hbound := hsolve hbound
    have hbody := hsolve hbody
    refine ⟨fun n hn => ?_, fun n hn => ?_, isHygienic_of_calls ?_ ?_⟩
    · simp only [freeNames, mem_append, mem_filter, decide_eq_true_eq] at hn
      exact hn.elim (hbound.free n) fun hn => hbody.free_outside hn.1 hn.2
    · rw [binders, mem_cons, mem_append] at hn
      obtain rfl | hn | hn := hn
      · exact checkBindable_iff.mp hbindable
      · exact hbound.bound n hn
      · exact hbody.bound_outside hn
    · exact fun hisValue => absurd hisValue (by simp [hvalue])
    · simpa [calls, hvalue] using ⟨hbound.hygienic, hbody.hygienic⟩
  | extend hrecord _ hval | overwrite hrecord _ _ hval =>
    have hrecord := hsolve hrecord
    have hval := hsolve hval
    exact .of_parts (forall_mem_cons.mpr ⟨hval, forall_mem_singleton.mpr hrecord⟩)
      (by simp [freeNames]) (by simp [binders])
      (isHygienic_recordExtend hval.hygienic hrecord.hygienic _)
  | restrict hrecord | access hrecord =>
    have hrecord := hsolve hrecord
    exact ⟨hrecord.free, hrecord.bound,
      isHygienic_of_calls trivial (by simpa [calls] using hrecord.hygienic)⟩
  | array helements =>
    have hparts := wellBound_elements hsolve helements
    exact .of_parts hparts (fun n hn => mem_freeNamesIn.mp hn)
      (fun n hn => mem_bindersIn.mp hn)
      (isHygienic_of_calls trivial fun called hcalled => (hparts called hcalled).hygienic)

theorem wellBound_of_infer (fuel : Nat) (hrun : infer fuel ctx term checker = .ok inferred final) :
    WellBound ctx term := by
  induction fuel generalizing ctx term checker inferred final with
  | zero => simp [infer] at hrun
  | succ fuel ih =>
    refine wellBound_of_steps (fun ctx term checker solved final hrun => ?_) (steps_of_step hrun)
    simp only [solveWith, CheckM.bind_eq_ok] at hrun
    obtain ⟨inferred, _, hinferred, -⟩ := hrun
    exact ih hinferred

end Inference

/-- Where inference succeeds, free names stand for values of the context, and no name is bound
that is bound in the context or reserved. Whenever it inlines a value on the way, no name of the
value is bound in the body: replacing the name is the same as replacing it with renaming, and
the free names of the result are those of the body and of the value. -/
theorem infer_hygienic {fuel : Nat} {ctx : Context} {term : Term} {checker final : Checker}
    {inferred : Inferred} (hrun : infer fuel ctx term checker = .ok inferred final) :
    (∀ name ∈ term.freeNames, ∃ type, ctx.value? name = some type) ∧
      (∀ name ∈ term.binders, ctx.binds name = false ∧ name ∉ reservedWords) ∧
      ∀ name value body nameLoc loc, term.Meets (.letIn name value body nameLoc loc) →
        value.isValue = true →
        (∀ binder ∈ body.binders, binder ∉ value.freeNames) ∧
          body.replace name value = body.substitute (Term.Copies.empty.insert name value) ∧
          ∀ y, y ∈ (body.replace name value).freeNames ↔
            y ∈ body.freeNames ∧ y ≠ name ∨ name ∈ body.freeNames ∧ y ∈ value.freeNames := by
  have hbound := Inference.wellBound_of_infer fuel hrun
  refine ⟨hbound.free, fun name hname => ?_, fun name value body nameLoc loc hmeets hvalue => ?_⟩
  · have hname := hbound.bound name hname
    simp only [Bool.and_eq_true, Bool.not_eq_true', contains_eq_mem,
      decide_eq_false_iff_not] at hname
    exact hname.symm
  · have hbinders := hbound.hygienic _ hmeets hvalue
    have hsame := replace_eq_substitute (x := name) body hbinders
    refine ⟨hbinders, hsame, fun y => ?_⟩
    rw [hsame, mem_freeNames_substitute]
    exact Term.Copies.exists_mem_namesFor_insert

/-- A value that is known, and is used by a local function. -/
def limitContext : Context :=
  [⟨1, "limit", .typed .number .synthetic false⟩, ⟨0, "Number", .typeParameter⟩]

/-- The body of the declaration of `cap`: a function that uses it below a parameter. -/
def cappedBody : Term :=
  .function (some ⟨"x", .synthetic⟩)
    (.application (.reference "cap" .synthetic) (.reference "x" .synthetic) .synthetic) none
    .synthetic

/-- The value of `cap`, in which `limit` is free. -/
def capValue : Term :=
  .function (some ⟨"n", .synthetic⟩) (.reference "limit" .synthetic) none .synthetic

/-- The value is put below the parameter of the body, and keeps its free name there. -/
theorem infer_hygienic_cap :
    ∃ inferred final, infer 9 limitContext
        (.letIn "cap" capValue cappedBody .synthetic .synthetic) {} = .ok inferred final ∧
      cappedBody.replace "cap" capValue =
        cappedBody.substitute (Term.Copies.empty.insert "cap" capValue) ∧
      "limit" ∈ (cappedBody.replace "cap" capValue).freeNames ∧
      limitContext.binds "x" = false := by
  have hyields : (infer 9 limitContext
      (.letIn "cap" capValue cappedBody .synthetic .synthetic)).yields {}
        (fun _ _ => true) = true := by
    decide +kernel
  obtain ⟨inferred, final, hrun, -⟩ := CheckM.exists_of_yields hyields
  obtain ⟨-, hbound, hinlined⟩ := infer_hygienic hrun
  obtain ⟨-, hsame, hfree⟩ := hinlined _ _ _ _ _ .refl rfl
  exact ⟨inferred, final, hrun, hsame, (hfree "limit").mpr (by decide), (hbound "x" (by decide)).1⟩

end RowScript
