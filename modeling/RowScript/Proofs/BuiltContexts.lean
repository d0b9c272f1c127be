import RowScript.Proofs.LocalNames

/-!
# The contexts that inference builds, described

The context as seen from inside a term is described by a table that the term follows, and everything
is bound in it that the term needs. Names that a term binds are free where the term stands.
-/

namespace RowScript

open Context Term Local List

open Bool (and_eq_true)

open Context (Heap Grown Described DescribedBinding)

namespace Inference

/-- What holds of a context that was built for a term in a scope. -/
structure Built (table : List Local) (scope ctx : Context) (term : Term) : Prop where
  described : Described table scope ctx
  needs : ∀ n ∈ term.needs (inlined table), ctx.binds n ∧ scope.Usable n
  binders : ∀ n ∈ term.binders, scope.find? n = none

variable {table : List Local} {S : Context → Prop} {checker middle final : Checker}
  {scope ctx ctx' inner : Context} {term : Term} {name : String} {type : Ty} {param : Param}

/-- The context as seen from inside a term that is solved in a heap is built for the term. -/
def SolvesBuilt (table : List Local) (solve : Context → Term → CheckM Solved) : Prop :=
  ∀ ⦃ctx term checker solved final⦄, solve ctx term checker = .ok solved final →
    term.isClosed = true → term.Follows table → ∀ ⦃S⦄, Heap none checker.stamp S → S ctx →
    Built table ctx solved.inner term

theorem find?_eq_none_of_cons {stamp : Nat} {n : String} {binding : Binding}
    (hnone : find? (⟨stamp, name, binding⟩ :: ctx) n = none) : ctx.find? n = none := by
  rw [Context.find?_cons] at hnone
  split at hnone
  · cases hnone
  · exact hnone

theorem usable_of_valueType {loc : Option Loc} (hrun : ctx.valueType name loc = .ok type) :
    ctx.binds name ∧ ctx.Usable name := by
  unfold valueType at hrun
  unfold Usable binds
  split at hrun <;> cases hrun
  all_goals
    rename_i hfind
    rw [hfind]
    exact ⟨rfl, fun heq => Option.some.inj heq ▸ rfl⟩

/-- A body built in a scope with a parameter, seen from outside of the function. -/
theorem Built.function {stamp : Nat} {body : Term} (ascribed : Option Ty) (loc : Loc)
    (hrow : ⟨param.name, param.loc, none⟩ ∈ table) (hfree : scope.find? param.name = none)
    (hbody : Built table (⟨stamp, param.name, .typed type param.loc false⟩ :: scope) ctx body) :
    Built table scope ctx (.function (some param) body ascribed loc) where
  described := hbody.described.narrow ⟨param.name, param.loc, none⟩ hfree hrow rfl
  needs n hn := (hbody.needs n hn).imp_right fun husable => husable.of_cons hfree
  binders := by
    intro n hn
    simp only [Term.binders, Option.map_some, Option.toList_some, List.cons_append,
      nil_append, mem_cons] at hn
    obtain rfl | hn := hn
    · exact hfree
    · exact find?_eq_none_of_cons (hbody.binders n hn)

theorem Built.mapped {f : Ty → Option Ty} (hbuilt : Built table scope ctx term)
    (hmapped : Mapped f ctx ctx') : Built table scope ctx' term :=
  ⟨hbuilt.described.mapped hmapped,
    fun n hn => (hbuilt.needs n hn).imp_left fun h => hmapped.binds.trans h, hbuilt.binders⟩

theorem Built.cons_typeParameter (hbuilt : Built table scope ctx term) (stamp : Nat)
    (name : String) : Built table scope (⟨stamp, name, .typeParameter⟩ :: ctx) term := by
  refine ⟨hbuilt.described.cons stamp .typeParameter fun _ => rfl, fun n hn => ?_, hbuilt.binders⟩
  refine (hbuilt.needs n hn).imp_left fun h => ?_
  rw [binds_cons, h, Bool.or_true]

theorem Built.replaceParameter {next : Nat} (hbuilt : Built table scope ctx term)
    (hheap : Heap none next S) (hctx : S ctx) (id : Nat) (type : Ty) :
    Built table scope (Inference.replaceParameter id type ctx next).1 term := by
  unfold Inference.replaceParameter
  split
  · exact hbuilt
  · exact hbuilt.mapped (hheap.mapped_mapTypes hctx)

/-- A context built for a term with the same needs and binders. -/
theorem Built.of_same {other : Term} (hbuilt : Built table scope ctx other)
    (hneeds : term.needs (inlined table) = other.needs (inlined table))
    (hbinders : term.binders = other.binders) : Built table scope ctx term :=
  ⟨hbuilt.described, hneeds ▸ hbuilt.needs, hbinders ▸ hbuilt.binders⟩

section Step

variable {solve : Context → Term → CheckM Solved} (hkeeps : SolvesInHeap solve)
  (hsolve : SolvesBuilt table solve) (hheap : Heap none checker.stamp S) (hctx : S ctx)
  {opened : Checker} {name : String} {value : Term} {nameLoc loc : Loc} {result bound : Solved}

section

variable {body : Term}

include hkeeps hheap hctx

/-- A later term is solved in a larger heap. -/
theorem SolvesInHeap.grown (hrun : solve ctx term checker = .ok result final) :
    Grown none S final.stamp fun T => T ctx ∧ T result.inner := by
  obtain ⟨-, -, T, hT, hle, hinner⟩ := hkeeps hrun (by simp) hheap hctx
  exact ⟨T, hT, hle, hle _ hctx, hinner.mem⟩

include hsolve

theorem body_built
    (hrun : solve (⟨checker.stamp, name, .typed type nameLoc false⟩ :: ctx) body
      { checker with stamp := checker.stamp + 1 } = .ok result final) (hbody : body.isClosed = true)
    (hfollows : body.Follows table) :
    (Grown none S final.stamp fun T => T result.inner) ∧
      Built table (⟨checker.stamp, name, .typed type nameLoc false⟩ :: ctx) result.inner body := by
  obtain ⟨-, -, T, hT, hle, hmem⟩ := keeps_push hheap hctx name type nameLoc
  obtain ⟨T', hT', hle', -, hinner⟩ := hkeeps.grown hT hmem hrun
  exact ⟨⟨T', hT', fun c hc => hle' c (hle c hc), hinner⟩, hsolve hrun hbody hfollows hT hmem⟩

theorem elements_built {elements : List Term} {results : List Solved}
    (hterms : ∀ element ∈ elements, element.isClosed)
    (hfollows : ∀ element ∈ elements, element.Follows table)
    (hall : SolvesAll solve ctx elements checker results final) :
    (∀ result ∈ results, Described table ctx result.inner) ∧
      ∀ element ∈ elements, ∃ result ∈ results, Built table ctx result.inner element := by
  induction hall generalizing S with
  | nil => simp
  | @cons element rest result results _ _ _ hresult _ ih =>
    obtain ⟨helement, hrest⟩ := forall_mem_cons.mp hterms
    obtain ⟨helementFollows, hrestFollow⟩ := forall_mem_cons.mp hfollows
    obtain ⟨T, hT, -, hctx', -⟩ := hkeeps.grown hheap hctx hresult
    obtain ⟨hresults, hbuilt⟩ := ih hT hctx' hrest hrestFollow
    have hfirst := hsolve hresult helement helementFollows hheap hctx
    refine ⟨forall_mem_cons.mpr ⟨hfirst.described, hresults⟩, forall_mem_cons.mpr
      ⟨⟨result, mem_cons_self, hfirst⟩, fun other hother => ?_⟩⟩
    obtain ⟨found, hfound, hfoundBuilt⟩ := hbuilt other hother
    exact ⟨found, mem_cons_of_mem _ hfound, hfoundBuilt⟩

/-- What is built for several subterms is joined for a term that needs and binds what they do. -/
theorem parts_built {parts : List Term} {solved : List Solved}
    (hall : SolvesAll solve ctx parts checker solved final) (hquiet : Quiet final opened)
    (hterms : ∀ part ∈ parts, part.isClosed) (hfollows : ∀ part ∈ parts, part.Follows table)
    (hneeds : ∀ n ∈ term.needs (inlined table), ∃ part ∈ parts, n ∈ part.needs (inlined table))
    (hbinders : ∀ n ∈ term.binders, ∃ part ∈ parts, n ∈ part.binders) :
    Built table ctx (mergeInner ctx solved opened.stamp).1 term := by
  obtain ⟨-, -, T, hT, -, hctx', hinner⟩ := all_keep hkeeps hheap hctx hall nofun
  obtain ⟨hresults, hbuilt⟩ := elements_built hkeeps hsolve hheap hctx hterms hfollows hall
  obtain ⟨hdescribed, hbinds⟩ := Heap.mergeInner_induction (P := Described table ctx)
    (fun hT ha hb => Described.merge hT ha hb) (fun hdescribed => hdescribed.binds)
    (hquiet.stamp ▸ hT) hctx' (.refl ctx) fun s hs => ⟨(hinner s hs).mem, hresults s hs⟩
  refine ⟨hdescribed, fun n hn => ?_, fun n hn => ?_⟩
  · obtain ⟨part, hpart, hn⟩ := hneeds n hn
    obtain ⟨result, hresult, hbuilt⟩ := hbuilt part hpart
    exact (hbuilt.needs n hn).imp_left (hbinds result hresult)
  · obtain ⟨part, hpart, hn⟩ := hbinders n hn
    obtain ⟨result, -, hbuilt⟩ := hbuilt part hpart
    exact hbuilt.binders n hn

/-- An inlined declaration is bound on top of what the body binds. It is described by
the context that was built for its value. -/
theorem letValue_built (hvalue : value.isValue)
    (hterm : (Term.letIn name value body nameLoc loc).isClosed)
    (hfollows : (Term.letIn name value body nameLoc loc).Follows table)
    (hbindable : ctx.checkBindable name (some nameLoc) = .ok ())
    (hresult : solve ctx (body.replace name value) checker = .ok result middle)
    (hbound : solve ctx value middle = .ok bound final) (stamp : Nat) :
    Built table ctx
      (⟨stamp, name, .defined value (some bound.type) nameLoc (some bound.inner) false⟩ ::
        result.inner) (.letIn name value body nameLoc loc) := by
  simp only [isClosed, allFunctions, and_eq_true] at hterm
  obtain ⟨⟨row, hstands⟩, hvalueFollows, hbodyFollows⟩ := hfollows
  have hfree := find?_eq_none_of_checkBindable hbindable
  obtain ⟨written, hwritten⟩ :=
    Option.isSome_iff_exists.mp (hstands.inert (isInert_of_isValue value hvalue))
  have hinlined : inlined table name := by
    refine any_eq_true.mpr ⟨row, hstands.mem, ?_⟩
    simp [hstands.name, hwritten]
  have hbody : (body.replace name value).isClosed :=
    allFunctions_replace hterm.1 body hterm.2
  have hreplaced := follows_replace hinlined hvalueFollows body hbodyFollows
  obtain ⟨T, hT, -, hctx', -⟩ := hkeeps.grown hheap hctx hresult
  have hresult := hsolve hresult hbody hreplaced hheap hctx
  have hbound := hsolve hbound hterm.1 hvalueFollows hT hctx'
  have hbinding : DescribedBinding table ctx result.inner name
      (.defined value (some bound.type) nameLoc (some bound.inner) false) := by
    rw [← hstands.name, ← hstands.loc]
    exact .defined value bound.type hstands.mem hwritten hbound.described
      (fun n hn => hbound.needs n (hstands.needs hwritten n hn))
      fun n hn => hbound.binders n (hstands.binders hwritten n hn)
  refine ⟨?_, fun n hn => ?_, fun n hn => ?_⟩
  · refine hresult.described.cons stamp hbinding fun hbinds => ?_
    simp [binds, hfree] at hbinds
  · rw [needs, hinlined, if_pos rfl, nil_append, mem_cons] at hn
    rw [binds_cons]
    obtain rfl | hn := hn
    · exact ⟨by simp, fun hfind => by rw [hfree] at hfind; cases hfind⟩
    · have hneeds := hresult.needs n ((replaced_replace name value body).mem_needs hinlined hn)
      exact ⟨by rw [hneeds.1, Bool.or_true], hneeds.2⟩
  · rw [binders, mem_cons, mem_append] at hn
    obtain rfl | hn | hn := hn
    · exact hfree
    · exact hbound.binders n hn
    · exact hresult.binders n (mem_binders_replace body hn)

/-- A declaration that is not inlined is in scope in the body like a parameter. -/
theorem letOnce_built {single : Ty} (hterm : (Term.letIn name value body nameLoc loc).isClosed)
    (hfollows : (Term.letIn name value body nameLoc loc).Follows table)
    (hbound : solve ctx value checker = .ok bound middle)
    (hopen : (bound.type.applying bound.principal).instantiate none middle = .ok single opened)
    (hbindable : ctx.checkBindable name (some nameLoc) = .ok ())
    (hresult : solve (⟨opened.stamp, name, .typed single nameLoc false⟩ :: ctx) body { opened with
      stamp := opened.stamp + 1 } = .ok result final) :
    Built table ctx (result.inner.merge bound.inner final.stamp).1
      (.letIn name value body nameLoc loc) := by
  simp only [isClosed, allFunctions, and_eq_true] at hterm
  obtain ⟨⟨row, hstands⟩, hvalueFollows, hbodyFollows⟩ := hfollows
  obtain rfl := hstands.name
  obtain rfl := hstands.loc
  have hfree := find?_eq_none_of_checkBindable hbindable
  obtain ⟨T₁, hT₁, -, hctx', hinner⟩ := hkeeps.grown hheap hctx hbound
  have hT₁ : Heap none opened.stamp T₁ := (quiet_instantiate hopen).stamp ▸ hT₁
  have hbound := hsolve hbound hterm.1 hvalueFollows hheap hctx
  obtain ⟨⟨T₂, hT₂, hle, hresultMem⟩, hresult⟩ :=
    body_built hkeeps hsolve hT₁ hctx' hresult hterm.2 hbodyFollows
  have habsorbs := hT₂.absorbs_merge hresultMem (hle _ hinner)
  refine ⟨hresult.described.narrow_merge hfree hT₂ hresultMem (hle _ hinner) hbound.described
      hstands.mem fun hwritten n hn => hbound.needs n (hstands.needs hwritten n hn),
    fun n hn => ?_, fun n hn => ?_⟩
  · rw [needs, mem_cons, mem_append] at hn
    obtain rfl | hn | hn := hn
    · refine ⟨habsorbs.binds_of_binds (hresult.described.binds ?_), fun hfind => ?_⟩
      · rw [binds_cons, decide_eq_true rfl, Bool.true_or]
      · rw [hfree] at hfind
        cases hfind
    · split at hn
      · cases hn
      · exact (hbound.needs n hn).imp_left habsorbs.binds_of_item
    · exact (hresult.needs n hn).imp habsorbs.binds_of_binds fun h => h.of_cons hfree
  · rw [binders, mem_cons, mem_append] at hn
    obtain rfl | hn | hn := hn
    · exact hfree
    · exact hbound.binders n hn
    · exact find?_eq_none_of_cons (hresult.binders n hn)

/-- The body of a function without a written type, seen from outside of the function when it is
decided what the parameter is. -/
theorem parameter_built (hbindable : ctx.checkBindable param.name (some param.loc) = .ok ())
    (hbody : SolvesBody solve ctx param body checker result final) (hterm : body.isClosed)
    (hfollows : (Term.function (some param) body none loc).Follows table) (type : Ty) :
    Built table ctx (replaceParameter (checker.counter + 1) type result.inner final.stamp).1
      (.function (some param) body none loc) := by
  have hfresh : Heap none { checker with counter := checker.counter + 1 }.stamp S := hheap
  obtain ⟨⟨T, hT, -, hinner⟩, hbuilt⟩ := body_built hkeeps hsolve hfresh hctx hbody hterm hfollows.2
  exact (hbuilt.function none loc (hfollows.1 param rfl)
    (find?_eq_none_of_checkBindable hbindable)).replaceParameter hT hinner _ type

end

end Step

/-- What is bound in a context without any new names. -/
theorem built_leaf (hneeds : ∀ n ∈ term.needs (inlined table), ctx.binds n ∧ ctx.Usable n)
    (hbinders : term.binders = []) : Built table ctx ctx term :=
  ⟨.refl ctx, hneeds, fun n hn => by rw [hbinders] at hn; cases hn⟩

theorem built_of_steps {solve : Context → Term → CheckM Solved} (hkeeps : SolvesInHeap solve)
    (hsolve : SolvesBuilt table solve) {inferred : Inferred}
    (hsteps : Steps solve ctx term checker inferred final) (hterm : term.isClosed)
    (hfollows : term.Follows table) (hheap : Heap none checker.stamp S) (hctx : S ctx) :
    Built table ctx (inferred.inner.getD ctx) term := by
  cases hsteps with
  | reference htype =>
    refine built_leaf (fun n hn => ?_) rfl
    rw [needs] at hn
    split at hn
    · cases hn
    · obtain rfl := mem_singleton.mp hn
      exact usable_of_valueType htype
  | boolean | number | string | unit | emptyRecord => exact built_leaf (by simp [needs]) rfl
  | thunk hbody => exact (hsolve hbody hterm hfollows.2 hheap hctx).of_same rfl rfl
  | settled hbindable hbody _ =>
    exact parameter_built hkeeps hsolve hheap hctx hbindable hbody hterm hfollows _
  | @lettered _ _ _ _ name _ _ hbindable hbody _ _ =>
    exact (parameter_built hkeeps hsolve hheap hctx hbindable hbody hterm hfollows
      (.named name)).cons_typeParameter _ name
  | writtenThunk _ hbody =>
    rw [isClosed, allFunctions, and_eq_true] at hterm
    exact (hsolve hbody hterm.2 hfollows.2 hheap hctx).of_same rfl rfl
  | @written param _ loc ascribed _ _ _ _ _ _ hbindable hbody =>
    rw [isClosed, allFunctions, and_eq_true] at hterm
    exact (body_built hkeeps hsolve hheap hctx hbody hterm.2 hfollows.2).2.function (some ascribed)
      loc (hfollows.1 param rfl) (find?_eq_none_of_checkBindable hbindable)
  | @writtenGeneric param body loc _ _ _ _ _ _ _ hplain =>
    -- a generic function is inferred as if its type were not written
    rw [isClosed, allFunctions, and_eq_true] at hterm
    have hplainFollows : (Term.function param body none loc).Follows table := hfollows
    exact (hsolve hplain hterm.2 hplainFollows hheap hctx).of_same rfl rfl
  | application hfunc harg hopen =>
    simp only [isClosed, allFunctions, and_eq_true] at hterm
    rw [Term.Follows] at hfollows
    exact parts_built hkeeps hsolve hheap hctx (.pair hfunc harg)
      ((quiet_fresh _ 1).trans (quiet_instantiate hopen))
      (by simpa [isClosed] using hterm) (by simpa using hfollows) (by simp [needs])
      (by simp [binders])
  | conditional hcondition hconsequence halternative =>
    simp only [isClosed, allFunctions, and_eq_true, and_assoc] at hterm
    rw [Term.Follows] at hfollows
    exact parts_built hkeeps hsolve hheap hctx
      (.cons hcondition (.pair hconsequence halternative)) (quiet_refl _)
      (by simpa [isClosed] using hterm) (by simpa using hfollows) (by simp [needs])
      (by simp [binders])
  | letValue hvalue hbindable hbody hbound =>
    exact letValue_built hkeeps hsolve hheap hctx hvalue hterm hfollows hbindable hbody hbound _
  | letOnce _ hbound hopen hbindable hbody =>
    exact letOnce_built hkeeps hsolve hheap hctx hterm hfollows hbound hopen hbindable hbody
  | extend hrecord _ hval =>
    simp only [isClosed, allFunctions, and_eq_true] at hterm
    exact parts_built hkeeps hsolve hheap hctx (.pair hrecord hval) (quiet_refl _)
      (by simpa [isClosed] using hterm.symm) (by simpa using hfollows.symm)
      (by simp [needs, or_comm]) (by simp [binders, or_comm])
  | @overwrite key value record loc _ _ _ _ _ _ _ hrecord _ hbase hval =>
    simp only [isClosed, allFunctions, and_eq_true] at hterm
    have hrestrict : (recordRestrict key record loc).isClosed := hterm.2
    have hclosed : value.isClosed := hterm.1
    obtain ⟨T, hT, -, hctx', -⟩ := hkeeps.grown hheap hctx hrecord
    exact parts_built hkeeps hsolve hT hctx' (.pair hbase hval) (quiet_refl _)
      (by simpa using ⟨hrestrict, hclosed⟩) (by simpa using ⟨hfollows.2, hfollows.1⟩)
      (by simp [needs, or_comm]) (by simp [binders, or_comm])
  | restrict hrecord | access hrecord =>
    exact (hsolve hrecord hterm hfollows hheap hctx).of_same rfl rfl
  | array helements =>
    have hfresh : Heap none { checker with counter := checker.counter + 1 }.stamp S := hheap
    exact parts_built hkeeps hsolve hfresh hctx helements (quiet_refl _)
      (allFunctionsIn_iff.mp hterm) (allFollow_iff.mp hfollows)
      (fun n hn => mem_needsIn.mp hn) fun n hn => mem_bindersIn.mp hn

end Inference

/-- The context as seen from inside a term that is solved is built for the term. -/
theorem solvesBuilt_solve (table : List Local) (fuel : Nat) :
    Inference.SolvesBuilt table (solve fuel) := by
  refine Inference.solve_induction (fun ih hsteps _ hterm hfollows S hheap hctx => ?_) fuel
  exact Inference.built_of_steps (solvesInHeap_solve _) ih hsteps hterm hfollows hheap hctx

end RowScript
