import RowScript.Proofs.InferenceSteps

/-!
# The types that inference gives to local names

`givenType` follows inference up to a local name and lists what the functions around it decide on
their placeholders afterwards. The context as seen from inside a term has the name with this type.
-/

namespace RowScript

open Context Term CheckM Inference List

open Bool (and_eq_true)

open Context (Heap Mapped MappedBinding)

namespace Ty

theorem replace?_hole_getD (ty : Ty) (id : Nat) (type : Ty) :
    (ty.replace? (.hole id) type).getD ty = ty.replaceHole id type := by
  rw [replace?]
  split
  · rfl
  · rename_i hoccurs
    refine (bindHoles_hole ty).symm.trans (bindHoles_congr fun i hi => ?_)
    rw [if_neg]
    rintro rfl
    exact hoccurs (mem_holes_of_occurs.mpr hi)

theorem replaceHole_self (ty : Ty) (id : Nat) : ty.replaceHole id (.hole id) = ty := by
  refine (bindHoles_congr fun i _ => ?_).trans (bindHoles_hole ty)
  split
  · rename_i heq
    rw [heq]
  · rfl

/-- Types put in the place of placeholders, one after the other. -/
def decided (decisions : List (Nat × Ty)) (ty : Ty) : Ty :=
  decisions.foldl (fun ty decision => ty.replaceHole decision.1 decision.2) ty

end Ty

/-- Runs a step and takes back what it did to the checker. -/
def CheckM.peek {α : Type} (x : CheckM α) : CheckM α := fun checker =>
  match x checker with
  | .ok value _ => .ok value checker
  | .error fault final => .error fault final

theorem CheckM.peek_of_ok {α : Type} {x : CheckM α} {checker final : Checker} {value : α}
    (hrun : x checker = .ok value final) : x.peek checker = .ok value checker := by
  rw [peek, hrun]

namespace Inference

/-- What a function decides on the placeholder of its parameter once its body is solved.
A parameter that nothing constrains gets a letter. -/
def parameterType (id : Nat) (body : Solved) (loc : Loc) : Except Fault Ty :=
  match solutionFor id body.principal with
  | some type => pure type
  | none => do pure (.named (← body.inner.nextTypeVariable (some loc) body.type.names))

/-- The type that a local name is given, and what is decided on placeholders after that. -/
structure Given where
  type : Ty
  decisions : List (Nat × Ty)

namespace Given

/-- One more decision. -/
def decide (given : Given) (id : Nat) (type : Ty) : Given :=
  { given with decisions := given.decisions ++ [(id, type)] }

/-- The type once all is decided. -/
def final (given : Given) : Ty := given.type.decided given.decisions

theorem final_decide (given : Given) (id : Nat) (type : Ty) :
    (given.decide id type).final = given.final.replaceHole id type := by
  rw [final, final, Ty.decided, Ty.decided, decide, foldl_append]
  rfl

end Given

section

variable (name : String) (solve : Context → Term → CheckM Solved)
  (follow : Context → Term → CheckM Given)

/-- Follows inference through terms that are solved one after the other, into the first
one that binds the name. -/
def givenAmong (ctx : Context) : List Term → CheckM Given
  | [] => throw ⟨.undeclared name false, none⟩
  | term :: rest =>
    if name ∈ term.binders then follow ctx term
    else do
      let _ ← solve ctx term
      givenAmong ctx rest

/-- Follows one level of inference to a local name. A name in an inlined value is followed
where the value is solved on its own, and not into the copies. -/
def given (ctx : Context) : Term → CheckM Given
  | .function none body none _ => follow ctx body
  | .function (some param) body none loc => do
    let id ← freshHole
    let ctx ← bindName ctx param.name (.typed (.hole id) param.loc false) (some param.loc)
    let given ← if param.name = name then pure ⟨.hole id, []⟩ else peek (follow ctx body)
    let body ← solve ctx body
    pure (given.decide id (← CheckM.ofExcept (parameterType id body loc)))
  | .function param body (some ascribed) loc => do
    match ← CheckM.ofExcept (ctx.normalize (some loc) ascribed), param with
    | .arrow .., none => follow ctx body
    | .arrow arg _, some param =>
      if param.name = name then pure ⟨arg, []⟩
      else do
        let ctx ← bindName ctx param.name (.typed arg param.loc false) (some param.loc)
        follow ctx body
    | _, _ => follow ctx (.function param body none loc)
  | .application func arg _ => givenAmong name solve follow ctx [func, arg]
  | .conditional condition consequence alternative _ =>
    givenAmong name solve follow ctx [condition, consequence, alternative]
  | .array elements _ => do
    let _ ← freshHole
    givenAmong name solve follow ctx elements
  | .recordExtend key value record loc => do
    let known ← peek (solve ctx record)
    if (known.type.applying known.principal).hasField key then do
      let _ ← solve ctx record
      givenAmong name solve follow ctx [.recordRestrict key record loc, value]
    else givenAmong name solve follow ctx [record, value]
  | .recordRestrict _ record _ | .fieldAccess _ record _ => follow ctx record
  | .letIn own value body nameLoc _ =>
    if value.isValue then
      if name ∈ body.binders then follow ctx (body.replace own value)
      else do
        let _ ← solve ctx (body.replace own value)
        if own = name then do pure ⟨(← solve ctx value).type, []⟩ else follow ctx value
    else if name ∈ value.binders then follow ctx value
    else do
      let bound ← solve ctx value
      let single ← (bound.type.applying bound.principal).instantiate none
      if own = name then pure ⟨single, []⟩
      else do
        let ctx ← bindName ctx own (.typed single nameLoc false) (some nameLoc)
        follow ctx body
  | _ => throw ⟨.undeclared name false, none⟩

end

end Inference

/-- Follows the inference of a term to a local name. -/
def givenType (name : String) : Nat → Context → Term → CheckM Given
  | 0, _, term => throw ⟨.outOfFuel, some term.loc⟩
  | fuel + 1, ctx, term => given name (solve fuel) (givenType name fuel) ctx term

/-! ## The declarations around a name -/

namespace Term

mutual

/-- The declarations in whose values a local name stands, the outermost one first. -/
def around (name : String) : Term → List String
  | .reference .. | .boolean _ | .number _ | .string _ | .unit _ | .emptyRecord _ => []
  | .function param body _ _ => if param.any (·.name = name) then [] else around name body
  | .letIn own value body _ _ =>
    if own = name then []
    else if name ∈ value.binders then own :: around name value
    else around name body
  | .application a b _ | .recordExtend _ b a _ =>
    if name ∈ a.binders then around name a else around name b
  | .conditional a b c _ =>
    if name ∈ a.binders then around name a
    else if name ∈ b.binders then around name b
    else around name c
  | .recordRestrict _ record _ | .fieldAccess _ record _ => around name record
  | .array elements _ => aroundIn name elements

def aroundIn (name : String) : List Term → List String
  | [] => []
  | term :: rest => if name ∈ term.binders then around name term else aroundIn name rest

end

/-- Some names are bound at most once in a term. -/
def BindsOnce (names : List String) (term : Term) : Prop := ∀ n ∈ names, term.binders.count n ≤ 1

variable {name n x : String} {replacement : Term}

theorem exists_of_mem_aroundIn {terms : List Term} (hn : n ∈ aroundIn name terms) :
    ∃ term ∈ terms, n ∈ term.around name := by
  induction terms with
  | nil => cases hn
  | cons term rest ih =>
    rw [aroundIn] at hn
    split at hn
    · exact ⟨term, mem_cons_self, hn⟩
    · obtain ⟨found, hfound, hn⟩ := ih hn
      exact ⟨found, mem_cons_of_mem _ hfound, hn⟩

/-- What stands around a name stands there in a part, or is declared by the term itself. -/
theorem exists_child_of_mem_around {term : Term} (hn : n ∈ term.around name) :
    n ∈ term.bare.binders ∨ ∃ child ∈ term.children, n ∈ child.around name := by
  cases term <;> grind [around, bare, binders, children, exists_of_mem_aroundIn]

theorem mem_binders_of_mem_around (term : Term) (hn : n ∈ term.around name) : n ∈ term.binders := by
  induction term using inductChildren with
  | step term ih =>
    refine Decidable.by_contra fun hnot => ?_
    obtain ⟨hbare, hchildren⟩ := (hereditary_binders term).mp hnot
    obtain hn | ⟨child, hchild, hn⟩ := exists_child_of_mem_around hn
    · exact hbare hn
    · exact hchildren child hchild (ih child hchild hn)

theorem aroundIn_pair {a b : Term} (hname : name ∈ a.binders ∨ name ∈ b.binders) :
    aroundIn name [a, b] = if name ∈ a.binders then a.around name else b.around name := by
  rw [aroundIn, aroundIn]
  split
  · rfl
  · rename_i ha
    rw [if_pos (hname.resolve_left ha)]

/-- A replacement binds a name where the term does, if it does not bring the name in. -/
theorem mem_binders_replace_iff (hname : n ∉ replacement.binders) (term : Term) :
    n ∈ (term.replace x replacement).binders ↔ n ∈ term.binders :=
  ⟨fun hn => (mem_binders_of_replace term hn).resolve_right hname, mem_binders_replace term⟩

theorem around_replace (hname : name ∉ replacement.binders) (term : Term)
    (hmem : name ∈ term.binders) : (term.replace x replacement).around name = term.around name := by
  induction term using induct with
  | function param body ascribed loc ih =>
    rw [replace, around, around]
    split
    · rfl
    · rename_i hparam
      rw [binders, mem_append] at hmem
      have hbody : name ∈ body.binders := by
        refine hmem.resolve_left fun hown => hparam ?_
        cases param with
        | none => cases hown
        | some param => simpa [eq_comm] using hown
      split
      · rfl
      · exact ih hbody
  | letIn own value body nameLoc loc ihvalue ihbody =>
    rw [binders, mem_cons, mem_append] at hmem
    simp only [replace, around, mem_binders_replace_iff hname]
    split
    · rfl
    · rename_i hown
      split
      · rename_i hvalue
        rw [ihvalue hvalue]
      · rename_i hvalue
        split
        · rfl
        · exact ihbody ((hmem.resolve_left (Ne.symm hown)).resolve_left hvalue)
  | application a b _ iha ihb =>
    rw [binders, mem_append] at hmem
    simp only [replace, around, mem_binders_replace_iff hname]
    split
    · exact iha ‹_›
    · exact ihb (hmem.resolve_left ‹_›)
  | recordExtend _ b a _ ihb iha =>
    rw [binders, mem_append] at hmem
    simp only [replace, around, mem_binders_replace_iff hname]
    split
    · exact iha ‹_›
    · exact ihb (hmem.resolve_right ‹_›)
  | conditional a b c _ iha ihb ihc =>
    rw [binders, mem_append, mem_append] at hmem
    simp only [replace, around, mem_binders_replace_iff hname]
    split
    · exact iha ‹_›
    · split
      · exact ihb ‹_›
      · exact ihc (hmem.resolve_left (not_or.mpr ⟨‹_›, ‹_›⟩))
  | recordRestrict _ _ _ ih | fieldAccess _ _ _ ih => exact ih hmem
  | array elements _ ih =>
    rw [replace, around, around]
    rw [binders] at hmem
    induction elements with
    | nil => cases hmem
    | cons term rest ihrest =>
      rw [forall_mem_cons] at ih
      rw [bindersIn, mem_append] at hmem
      simp only [replaceAll, aroundIn, mem_binders_replace_iff hname]
      split
      · exact ih.1 ‹_›
      · exact ihrest ih.2 (hmem.resolve_left ‹_›)
  | reference | boolean | number | string | unit | emptyRecord => cases hmem

/-- Inlining binds a name as often as before, if it does not bring the name in. -/
theorem count_binders_replace (hname : n ∉ replacement.binders) (term : Term) :
    (term.replace x replacement).binders.count n = term.binders.count n := by
  have hreplaced := replaced_replace x replacement term
  generalize term.replace x replacement = result at hreplaced ⊢
  induction hreplaced with
  | same => rfl
  | copy => exact count_eq_zero.mpr hname
  | function _ _ _ _ ih => rw [binders, binders, count_append, count_append, ih]
  | letIn _ _ _ _ _ iha ihb => simp only [binders, count_cons, count_append, iha, ihb]
  | application _ _ _ iha ihb | recordExtend _ _ _ _ iha ihb =>
    simp only [binders, count_append, iha, ihb]
  | conditional _ _ _ _ iha ihb ihc => simp only [binders, count_append, iha, ihb, ihc]
  | recordRestrict _ _ _ ih | fieldAccess _ _ _ ih => exact ih
  | @array elements f _ helements ih =>
    clear helements
    rw [binders, binders]
    induction elements with
    | nil => rfl
    | cons term rest ihrest =>
      rw [forall_mem_cons] at ih
      simp only [map_cons, bindersIn, count_append, ih.1, ihrest ih.2]

/-- A term in which inference can be followed to a local name: what leads to the name is
bound once. -/
structure LeadsTo (table : List Local) (name : String) (term : Term) : Prop where
  closed : term.isClosed
  follows : term.Follows table
  mem : name ∈ term.binders
  once : term.BindsOnce (name :: term.around name)

section

variable {table : List Local} {term value body : Term} {own : String} {nameLoc loc : Loc}

theorem mem_binders_of_way (hname : name ∈ term.binders) (hn : n ∈ name :: term.around name) :
    n ∈ term.binders :=
  (mem_cons.mp hn).elim (fun h => h ▸ hname) (mem_binders_of_mem_around term)

theorem BindsOnce.of_sublist {names all : List String} (honce : ∀ n ∈ names, all.count n ≤ 1)
    (hsub : term.binders.Sublist all) : term.BindsOnce names :=
  fun n hn => Nat.le_trans (hsub.count_le n) (honce n hn)

/-- A name that is not the parameter is in the body of a function. -/
theorem LeadsTo.inBody {param : Option Param} {ascribed : Option Ty}
    (hleads : (function param body ascribed loc).LeadsTo table name)
    (hown : param.any (·.name = name) = false) : body.LeadsTo table name := by
  obtain ⟨hclosed, hfollows, hmem, honce⟩ := hleads
  rw [isClosed, allFunctions, and_eq_true] at hclosed
  rw [around, hown, if_neg Bool.false_ne_true] at honce
  refine ⟨hclosed.2, hfollows.2, ?_, .of_sublist honce (sublist_append_right _ _)⟩
  refine (mem_append.mp hmem).resolve_left fun hparam => ?_
  cases param with
  | none => cases hparam
  | some param => exact of_decide_eq_false hown (mem_singleton.mp hparam).symm

variable (hleads : (letIn own value body nameLoc loc).LeadsTo table name) (hown : own ≠ name)

include hleads hown

theorem LeadsTo.inValue (hvalue : name ∈ value.binders) : value.LeadsTo table name := by
  obtain ⟨hclosed, hfollows, -, honce⟩ := hleads
  rw [isClosed, allFunctions, and_eq_true] at hclosed
  rw [around, if_neg hown, if_pos hvalue] at honce
  exact ⟨hclosed.1, hfollows.2.1, hvalue, .of_sublist
    (fun n hn => honce n (cons_subset_cons _ (subset_cons_self _ _) hn))
    ((sublist_append_left _ _).cons own)⟩

theorem LeadsTo.inRest (hvalue : name ∉ value.binders) : body.LeadsTo table name := by
  obtain ⟨hclosed, hfollows, hmem, honce⟩ := hleads
  rw [isClosed, allFunctions, and_eq_true] at hclosed
  rw [around, if_neg hown, if_neg hvalue] at honce
  rw [binders, mem_cons, mem_append] at hmem
  exact ⟨hclosed.2, hfollows.2.2, (hmem.resolve_left (Ne.symm hown)).resolve_left hvalue,
    .of_sublist honce ((sublist_append_right _ _).cons own)⟩

end

end Term

/-! ## The way to a name -/

/-- A binding of a local value with its type. -/
def Binding.IsLocal (type : Ty) (binding : Binding) : Prop :=
  (∃ loc, binding = .typed type loc false) ∨
    ∃ term loc inner, binding = .defined term (some type) loc inner false

namespace Inference

/-- The way of a search to a local name: the declarations whose values it goes into, and
whether a context of its own is kept for the value. -/
abbrev Way := List (String × Bool)

/-- The first declaration on the way for which a context is kept is bound. -/
def Way.Entered : Way → Context → Prop
  | [], _ => True
  | (own, true) :: _, ctx => ctx.binds own = true
  | (_, false) :: way, ctx => Entered way ctx

/-- What the names on the way to a local name have to stand for, up to the next context
and from there on. -/
def Way.clauses (name : String) (type : Ty) : Way → List (String × (Binding → Prop))
  | [] => [(name, Binding.IsLocal type)]
  | (own, true) :: way => [(own, fun binding => ∃ term ownType loc inner,
      binding = .defined term (some ownType) loc (some inner) false ∧ Way.Entered way inner ∧
        ∀ clause ∈ clauses name type way, Says [clause.1] clause.2 inner)]
  | (own, false) :: way =>
    (own, fun binding => ∃ ownType loc, binding = .typed ownType loc false) ::
      clauses name type way

/-- A search finds a local name with its type in a context, unless type parameters are in
its way. -/
def Way.Shows (way : Way) (name : String) (type : Ty) (ctx : Context) : Prop :=
  ∀ clause ∈ way.clauses name type, ctx.Says [clause.1] clause.2

section

variable {way : Way} {name own : String} {type : Ty} {ctx other added : Context} {next : Nat}
  {S : Context → Prop}

theorem Way.mem_of_clause {clause : String × (Binding → Prop)}
    (hclause : clause ∈ way.clauses name type) : clause.1 ∈ name :: way.map Prod.fst := by
  induction way with
  | nil => simp_all [clauses]
  | cons step way ih =>
    obtain ⟨own, kept⟩ := step
    cases kept with
    | true => simp_all [clauses]
    | false =>
      obtain rfl | hclause := mem_cons.mp hclause
      · simp
      · rw [map_cons, mem_cons, mem_cons]
        exact (mem_cons.mp (ih hclause)).imp_right .inr

/-- A context that has nothing of the way is no obstacle. -/
theorem Way.shows_of_says (hsaid : ctx.Says (name :: way.map Prod.fst) fun _ => False) :
    way.Shows name type ctx := by
  intro clause hclause entry hentry hname
  refine (hsaid entry hentry ?_).imp_right False.elim
  rw [mem_singleton.mp hname]
  exact mem_of_clause hclause

theorem Way.Shows.append (hshows : way.Shows name type ctx)
    (hadded : ∀ entry ∈ added, entry.binding = .typeParameter) :
    way.Shows name type (added ++ ctx) :=
  fun clause hclause => (hshows clause hclause).append hadded

theorem Way.Shows.cons (hshows : way.Shows name type ctx) {stamp : Nat} {binding : Binding}
    (hown : own ∉ name :: way.map Prod.fst) :
    way.Shows name type (⟨stamp, own, binding⟩ :: ctx) := by
  refine fun clause hclause => (hshows clause hclause).cons fun hname => absurd ?_ hown
  rw [mem_singleton.mp hname]
  exact mem_of_clause hclause

theorem Way.Shows.merge (hheap : Heap none next S) (hctx : S ctx) (hother : S other)
    (hshows : way.Shows name type ctx) (hshows' : way.Shows name type other) :
    way.Shows name type (ctx.merge other next).1 :=
  fun clause hclause => .merge hheap hctx hother (hshows clause hclause) (hshows' clause hclause)

theorem Way.shows_nil : Way.Shows [] name type ctx ↔ ctx.Says [name] (Binding.IsLocal type) := by
  simp [Shows, clauses]

theorem Way.shows_kept :
    Way.Shows ((own, true) :: way) name type ctx ↔ ctx.Says [own] fun binding =>
      ∃ term ownType loc inner, binding = .defined term (some ownType) loc (some inner) false ∧
        way.Entered inner ∧ way.Shows name type inner := by
  simp [Shows, clauses]

theorem Way.shows_once :
    Way.Shows ((own, false) :: way) name type ctx ↔
      (ctx.Says [own] fun binding => ∃ ownType loc, binding = .typed ownType loc false) ∧
        way.Shows name type ctx := by
  simp [Shows, clauses]

theorem Way.Entered.of_binds (hentered : way.Entered ctx)
    (hbinds : ∀ {own}, ctx.binds own → other.binds own) : way.Entered other := by
  induction way with
  | nil => trivial
  | cons step way ih =>
    obtain ⟨own, kept⟩ := step
    cases kept with
    | true => exact hbinds hentered
    | false => exact ih hentered

theorem Way.Shows.mapped {f : Ty → Option Ty} {image : Context} (hshows : way.Shows name type ctx)
    (hmapped : Mapped f ctx image) : way.Shows name ((f type).getD type) image := by
  induction way generalizing ctx image with
  | nil =>
    refine shows_nil.mpr ((shows_nil.mp hshows).mapped hmapped fun hlocal himage => ?_)
    obtain ⟨loc, rfl⟩ | ⟨term, loc, inner, rfl⟩ := hlocal
    · cases himage with
      | global hglobal => cases hglobal
      | leaf => exact .inl ⟨loc, rfl⟩
    · cases himage with
      | global hglobal => cases hglobal
      | leaf => exact .inr ⟨term, loc, none, rfl⟩
      | defined => exact .inr ⟨term, loc, _, rfl⟩
  | cons step way ih =>
    obtain ⟨own, kept⟩ := step
    cases kept with
    | true =>
      refine shows_kept.mpr ((shows_kept.mp hshows).mapped hmapped fun hkept himage => ?_)
      obtain ⟨term, ownType, loc, inner, rfl, hentered, hinner⟩ := hkept
      cases himage with
      | global hglobal => cases hglobal
      | leaf _ hnone => cases hnone
      | defined _ _ _ himage =>
        exact ⟨term, _, loc, _, rfl, hentered.of_binds fun h => himage.binds.trans h,
          ih hinner himage⟩
    | false =>
      obtain ⟨hown, hrest⟩ := shows_once.mp hshows
      refine shows_once.mpr ⟨hown.mapped hmapped fun honce himage => ?_, ih hrest hmapped⟩
      obtain ⟨ownType, loc, rfl⟩ := honce
      cases himage with
      | global hglobal => cases hglobal
      | leaf => exact ⟨_, loc, rfl⟩

theorem Way.Shows.mergeInner {solved : List Solved} (hheap : Heap none next S) (hctx : S ctx)
    (hbase : way.Shows name type ctx)
    (hinner : ∀ s ∈ solved, S s.inner ∧ ∀ {name}, ctx.binds name → s.inner.binds name)
    (hshows : ∀ s ∈ solved, way.Shows name type s.inner) :
    way.Shows name type (mergeInner ctx solved next).1 ∧ ∀ s ∈ solved, ∀ {own},
      s.inner.binds own → (mergeInner ctx solved next).1.binds own := by
  obtain ⟨⟨-, hresult⟩, hbinds⟩ := Heap.mergeInner_induction
    (P := fun c => (∀ {own}, ctx.binds own = true → c.binds own = true) ∧ way.Shows name type c)
    (fun hT ha hb hPa hPb =>
      ⟨fun hown => (hT.absorbs_merge ha hb).binds_of_binds (hPa.1 hown),
        .merge hT ha hb hPa.2 hPb.2⟩)
    (fun hP => hP.1) hheap hctx ⟨id, hbase⟩
    fun s hs => ⟨(hinner s hs).1, (hinner s hs).2, hshows s hs⟩
  exact ⟨hresult, hbinds⟩

end

/-- A search finds a local name with its type, going through the values of certain
declarations. Those that have a context of their own may be inlined. -/
structure Traced (table : List Local) (name : String) (type : Ty) (names : List String) (way : Way)
    (ctx : Context) : Prop where
  names : way.map Prod.fst = names
  inlined : ∀ own, (own, true) ∈ way → Local.inlined table own
  entered : way.Entered ctx
  shows : way.Shows name type ctx

/-- Inference is followed to a local name, and a context has the name with the type that it
was given. -/
abbrev Finds (table : List Local) (name : String) (follow : CheckM Given) (checker : Checker)
    (names : List String) (ctx : Context) : Prop :=
  ∃ given last way, follow checker = .ok given last ∧ Traced table name given.final names way ctx

/-- The context of a term has a local name with the type that it was given. -/
def SolvesTracing (table : List Local) (name : String) (solve : Context → Term → CheckM Solved)
    (follow : Context → Term → CheckM Given) : Prop :=
  ∀ ⦃ctx term checker solved final⦄, solve ctx term checker = .ok solved final →
    term.isClosed = true → term.Follows table → ∀ ⦃S⦄, Ready S ctx checker →
    name ∈ term.binders → term.BindsOnce (name :: term.around name) →
    ∃ given last way, follow ctx term checker = .ok given last ∧
      Traced table name given.final (term.around name) way solved.inner

section

variable {table : List Local} {name : String} {solve : Context → Term → CheckM Solved}
  {follow : Context → Term → CheckM Given} {ctx : Context} {S : Context → Prop}
  {checker final middle : Checker} {term body value : Term} {names : List String}
  {solved : List Solved} {terms : List Term} {type : Ty} {param : Param} {loc nameLoc : Loc}
  {result bound : Solved}

theorem SolvesTracing.finds {solved : Solved} (hsolve : SolvesTracing table name solve follow)
    (hrun : solve ctx term checker = .ok solved final) (hready : Ready S ctx checker)
    (hleads : term.LeadsTo table name) :
    Finds table name (follow ctx term) checker (term.around name) solved.inner :=
  hsolve hrun hleads.closed hleads.follows hready hleads.mem hleads.once

theorem Finds.imp {x y : CheckM Given} {start : Checker}
    (hfinds : Finds table name x checker names ctx)
    (hrun : ∀ {given last}, x checker = .ok given last → y start = .ok given last) :
    Finds table name y start names ctx := by
  obtain ⟨given, last, way, hgiven, htraced⟩ := hfinds
  exact ⟨given, last, way, hrun hgiven, htraced⟩

theorem not_mem_of_count {n : String} {a b : List String} (hcount : (a ++ b).count n ≤ 1)
    (ha : n ∈ a) : n ∉ b := by
  intro hb
  have hpos := count_pos_iff.mpr ha
  have hpos' := count_pos_iff.mpr hb
  rw [count_append] at hcount
  omega

theorem Traced.append {way : Way} {inner letters : Context}
    (htraced : Traced table name type names way inner)
    (hletters : ∀ entry ∈ letters, entry.binding = .typeParameter) :
    Traced table name type names way (letters ++ inner) := by
  refine ⟨htraced.names, htraced.inlined, htraced.entered.of_binds fun hbinds => ?_,
    htraced.shows.append hletters⟩
  obtain ⟨entry, hentry, rfl⟩ := exists_mem_of_binds hbinds
  exact binds_of_mem (mem_append_right _ hentry)

/-- A function puts in what it decided on its parameter. -/
theorem Traced.replaceParameter {type : Ty} {names : List String} {way : Way} {inner : Context}
    {next : Nat} (htraced : Traced table name type names way inner) (hheap : Heap none next S)
    (hinner : S inner) (id : Nat) (decided : Ty) :
    Traced table name (type.replaceHole id decided) names way
      (replaceParameter id decided inner next).1 := by
  unfold Inference.replaceParameter
  split
  · rename_i heq
    rw [heq, Ty.replaceHole_self]
    exact htraced
  · have hmapped := hheap.mapped_mapTypes (f := (·.replace? (.hole id) decided)) hinner
    refine ⟨htraced.names, htraced.inlined,
      htraced.entered.of_binds fun hbinds => hmapped.binds.trans hbinds, ?_⟩
    rw [← Ty.replace?_hole_getD]
    exact htraced.shows.mapped hmapped

theorem Traced.own (hsaid : ctx.Says [name] (Binding.IsLocal type)) :
    Traced table name type [] [] ctx :=
  ⟨rfl, by simp, trivial, Way.shows_nil.mpr hsaid⟩

variable (hregular : Regular solve) (hsaying : SolvesSaying solve)
  (hsolve : SolvesTracing table name solve follow) (hready : Ready S ctx checker)

include hregular hsaying hsolve hready

/-- Of several terms, one has the name, and the others do not have what leads to it. -/
theorem traces_parts (hterms : ∀ term ∈ terms, term.isClosed)
    (hfollows : ∀ term ∈ terms, term.Follows table)
    (hall : SolvesAll solve ctx terms checker solved final) (hname : name ∈ bindersIn terms)
    (honce : ∀ n ∈ name :: aroundIn name terms, (bindersIn terms).count n ≤ 1) :
    ∃ given last, ∃ way : Way, givenAmong name solve follow ctx terms checker = .ok given last ∧
      way.map Prod.fst = aroundIn name terms ∧
      (∀ own, (own, true) ∈ way → Local.inlined table own) ∧
      (ctx.Says (name :: aroundIn name terms) fun _ => False) ∧
      (∃ s ∈ solved, way.Entered s.inner) ∧ ∀ s ∈ solved, way.Shows name given.final s.inner := by
  induction hall generalizing S with
  | nil => cases hname
  | @cons term rest s others checker c₁ final hs hothers ih =>
    obtain ⟨hterm, hrest⟩ := forall_mem_cons.mp hterms
    obtain ⟨htermFollows, hrestFollow⟩ := forall_mem_cons.mp hfollows
    obtain ⟨T, hT, hinner, hbuilt⟩ := hready.run hregular hterm hs
    rw [aroundIn] at honce ⊢
    rw [givenAmong]
    by_cases hmem : name ∈ term.binders
    · rw [if_pos hmem] at honce ⊢
      rw [if_pos hmem]
      obtain ⟨given, last, way, hgiven, htraced⟩ := hsolve hs hterm htermFollows hready hmem
        (.of_sublist honce (sublist_append_left _ _))
      have hsilent : ctx.Says (name :: term.around name) fun _ => False :=
        .of_find?_eq_none fun n hn => hbuilt.binders n (mem_binders_of_way hmem hn)
      obtain ⟨-, -, -, hsolved⟩ := hT.toReady.runs hregular hrest hothers
      refine ⟨given, last, way, hgiven, htraced.names, htraced.inlined, hsilent,
        ⟨s, mem_cons_self, htraced.entered⟩,
        forall_mem_cons.mpr ⟨htraced.shows, fun other hother => Way.shows_of_says ?_⟩⟩
      obtain ⟨found, hfound, S', c, c', hready', -, hrun⟩ := hsolved other hother
      rw [htraced.names]
      refine hsaying hrun (hrest found hfound) hready' (fixed_false _) (fun n hn hbinder => ?_)
        hsilent
      exact not_mem_of_count (honce n hn) (mem_binders_of_way hmem hn)
        (mem_bindersIn.mpr ⟨found, hfound, hbinder⟩)
    · rw [if_neg hmem] at honce ⊢
      rw [if_neg hmem]
      have hnameRest := (mem_append.mp hname).resolve_left hmem
      have hrestOnce : ∀ n ∈ name :: aroundIn name rest, (bindersIn rest).count n ≤ 1 :=
        fun n hn => Nat.le_trans ((sublist_append_right _ _).count_le n) (honce n hn)
      obtain ⟨given, last, way, hgiven, hnames, hinlined, hsilent, ⟨found, hfound, hentered⟩,
        hshows⟩ := ih hT.toReady hrest hrestFollow hnameRest hrestOnce
      refine ⟨given, last, way, bind_eq_ok.mpr ⟨s, c₁, hs, hgiven⟩, hnames, hinlined,
        hsilent, ⟨found, mem_cons_of_mem _ hfound, hentered⟩,
        forall_mem_cons.mpr ⟨Way.shows_of_says ?_, hshows⟩⟩
      rw [hnames]
      refine hsaying hs hterm hready (fixed_false _) (fun n hn hbinder => ?_) hsilent
      refine not_mem_of_count (honce n hn) hbinder ?_
      obtain rfl | hn := mem_cons.mp hn
      · exact hnameRest
      · obtain ⟨found, hfound, hn⟩ := exists_of_mem_aroundIn hn
        exact mem_bindersIn.mpr ⟨found, hfound, mem_binders_of_mem_around found hn⟩

/-- The context that joins the parts has the name. -/
theorem traced_parts (hall : SolvesAll solve ctx terms checker solved final)
    (hterms : ∀ term ∈ terms, term.isClosed) (hfollows : ∀ term ∈ terms, term.Follows table)
    (hname : name ∈ bindersIn terms) (hnames : aroundIn name terms = names)
    (honce : ∀ n ∈ name :: names, (bindersIn terms).count n ≤ 1) :
    Finds table name (givenAmong name solve follow ctx terms) checker names
      (mergeInner ctx solved final.stamp).1 := by
  subst hnames
  obtain ⟨given, last, way, hgiven, hnames, hinlined, hsilent, ⟨s, hs, hentered⟩, hshows⟩ :=
    traces_parts hregular hsaying hsolve hready hterms hfollows hall hname honce
  obtain ⟨T, hT, hinner, -⟩ := hready.runs hregular hterms hall
  obtain ⟨hmerged, hbinds⟩ := Way.Shows.mergeInner hT.heap hT.mem
    (Way.shows_of_says (hnames ▸ hsilent)) hinner hshows
  exact ⟨given, last, way, hgiven, hnames, hinlined, hentered.of_binds (hbinds s hs), hmerged⟩

theorem parameter_traced (letters : Context)
    (hbindable : ctx.checkBindable param.name (some param.loc) = .ok ())
    (hbody : SolvesBody solve ctx param body checker result final)
    (htype : parameterType (checker.counter + 1) result loc = .ok type)
    (hletters : ∀ entry ∈ letters, entry.binding = .typeParameter)
    (hleads : (Term.function (some param) body none loc).LeadsTo table name) :
    Finds table name (given name solve follow ctx (.function (some param) body none loc)) checker
      ((Term.function (some param) body none loc).around name)
      (letters ++ (replaceParameter (checker.counter + 1) type result.inner final.stamp).1) := by
  obtain ⟨T, hT⟩ := hready.bindParameter param
  have hterm : body.isClosed := hleads.closed
  obtain ⟨T', hT', hinner, -⟩ := hT.run hregular hterm hbody
  by_cases hown : param.name = name
  · subst hown
    have hcount := hleads.once param.name mem_cons_self
    rw [around, Option.any_some, if_pos (decide_eq_true rfl)]
    refine ⟨Given.decide ⟨.hole (checker.counter + 1), []⟩ (checker.counter + 1) type, final, [],
      ?_, ?_⟩
    · simp only [given, if_true, bind_eq_ok, freshHole_eq_ok, bindName_eq_ok,
        ofExcept_eq_ok, pure_eq_ok]
      exact ⟨_, _, ⟨rfl, rfl⟩, _, _, ⟨hbindable, rfl, rfl⟩, _, _, ⟨rfl, rfl⟩, _, _, hbody, _, _,
        ⟨htype, rfl⟩, rfl, rfl⟩
    · refine (Traced.replaceParameter (.own ?_) hT'.heap hinner _ _).append hletters
      exact (hsaying.bound hT hbody hterm (find?_eq_none_of_checkBindable hbindable)
        (not_mem_of_count hcount (mem_singleton_self _))).imp
          fun _ heq => .inl ⟨param.loc, heq⟩
  · have hnot : (some param).any (·.name = name) = false := decide_eq_false hown
    rw [around, hnot, if_neg Bool.false_ne_true]
    obtain ⟨g, last, way, hgiven, htraced⟩ := hsolve.finds hbody hT (hleads.inBody hnot)
    refine ⟨g.decide (checker.counter + 1) type, final, way, ?_, ?_⟩
    · simp only [given, if_neg hown, bind_eq_ok, freshHole_eq_ok,
        bindName_eq_ok, ofExcept_eq_ok, pure_eq_ok]
      exact ⟨_, _, ⟨rfl, rfl⟩, _, _, ⟨hbindable, rfl, rfl⟩, _, _, peek_of_ok hgiven, _, _,
        hbody, _, _, ⟨htype, rfl⟩, rfl, rfl⟩
    · rw [Given.final_decide]
      exact (htraced.replaceParameter hT'.heap hinner _ _).append hletters

omit hregular in
theorem written_traced {ascribed arg ret : Ty}
    (htype : ctx.normalize (some loc) ascribed = .ok (.arrow arg ret))
    (hbindable : ctx.checkBindable param.name (some param.loc) = .ok ())
    (hbody : solve (⟨checker.stamp, param.name, .typed arg param.loc false⟩ :: ctx) body { checker
      with stamp := checker.stamp + 1 } = .ok result final)
    (hleads : (Term.function (some param) body (some ascribed) loc).LeadsTo table name) :
    Finds table name (given name solve follow ctx (.function (some param) body (some ascribed) loc))
      checker ((Term.function (some param) body (some ascribed) loc).around name) result.inner := by
  obtain ⟨T, hT⟩ := hready.bindWritten param hleads.closed htype
  by_cases hown : param.name = name
  · subst hown
    have hcount := hleads.once param.name mem_cons_self
    have hterm := hleads.closed
    simp only [isClosed, allFunctions, and_eq_true] at hterm
    rw [around, Option.any_some, if_pos (decide_eq_true rfl)]
    refine ⟨⟨arg, []⟩, checker, [], ?_, .own ?_⟩
    · simp only [given, bind_eq_ok, ofExcept_eq_ok]
      refine ⟨_, _, ⟨htype, rfl⟩, ?_⟩
      dsimp only
      rw [if_pos rfl]
      rfl
    · exact (hsaying.bound hT hbody hterm.2 (find?_eq_none_of_checkBindable hbindable)
        (not_mem_of_count hcount (mem_singleton_self _))).imp
          fun _ heq => .inl ⟨param.loc, heq⟩
  · have hnot : (some param).any (·.name = name) = false := decide_eq_false hown
    rw [around, hnot, if_neg Bool.false_ne_true]
    refine (hsolve.finds hbody hT (hleads.inBody hnot)).imp fun hgiven => ?_
    simp only [given, bind_eq_ok, ofExcept_eq_ok]
    refine ⟨_, _, ⟨htype, rfl⟩, ?_⟩
    simp only [if_neg hown, bind_eq_ok, bindName_eq_ok]
    exact ⟨_, _, ⟨hbindable, rfl, rfl⟩, hgiven⟩

/-- A declaration that is inlined is bound on top, with a context for its value. The body
has copies of the value, which are not followed. -/
theorem value_traced {own : String} (hvalue : value.isValue)
    (hbindable : ctx.checkBindable own (some nameLoc) = .ok ())
    (hresult : solve ctx (body.replace own value) checker = .ok result middle)
    (hbound : solve ctx value middle = .ok bound final)
    (hleads : (letIn own value body nameLoc loc).LeadsTo table name) :
    Finds table name (given name solve follow ctx (.letIn own value body nameLoc loc)) checker
      ((letIn own value body nameLoc loc).around name)
      (⟨final.stamp, own, .defined value (some bound.type) nameLoc (some bound.inner) false⟩ ::
        result.inner) := by
  obtain ⟨hterm, ⟨⟨row, hstands⟩, hvalueFollows, hbodyFollows⟩, -, honce⟩ := id hleads
  rw [isClosed, allFunctions, and_eq_true] at hterm
  have hinlined : Local.inlined table own := by
    refine any_eq_true.mpr ⟨row, hstands.mem, ?_⟩
    simp [hstands.name, hstands.inert (isInert_of_isValue value hvalue)]
  have hclosed : (body.replace own value).isClosed :=
    allFunctions_replace hterm.1 body hterm.2
  have hfree := find?_eq_none_of_checkBindable hbindable
  obtain ⟨T, hT, -⟩ := hready.run hregular hclosed hresult
  -- the body does not have the name of the declaration if it is bound once
  have hsaid (hcount : (own :: (value.binders ++ body.binders)).count own ≤ 1) :
      result.inner.Says [own] fun _ => False := by
    have hnot := not_mem_of_count (a := [own]) hcount (mem_singleton_self _)
    refine hsaying hresult hclosed hready (fixed_false _) (fun n hn hbinder => hnot ?_)
      (.of_find?_eq_none (by simpa using hfree))
    rw [mem_singleton.mp hn] at hbinder
    exact mem_append.mpr (mem_binders_of_replace body hbinder).symm
  by_cases hown : own = name
  · subst hown
    rw [around, if_pos rfl]
    have hcount := honce own mem_cons_self
    have hbody : own ∉ body.binders := fun h =>
      not_mem_of_count (a := [own]) hcount (mem_singleton_self _) (mem_append_right _ h)
    refine ⟨⟨bound.type, []⟩, final, [], ?_,
      .own (.cons ((hsaid hcount).imp fun _ => False.elim) ?_)⟩
    · simp only [given, hvalue, if_true, if_neg hbody, bind_eq_ok, pure_eq_ok]
      exact ⟨_, _, hresult, _, _, hbound, rfl, rfl⟩
    · exact fun _ => .inr (.inr ⟨value, nameLoc, some bound.inner, rfl⟩)
  · by_cases hnameValue : name ∈ value.binders
    · replace hleads := hleads.inValue hown hnameValue
      rw [around, if_neg hown, if_pos hnameValue] at honce ⊢
      have hbody : name ∉ body.binders := fun h =>
        not_mem_of_count (a := own :: value.binders) (honce name mem_cons_self)
          (mem_cons_of_mem _ hnameValue) h
      obtain ⟨g, last, way, hgiven, htraced⟩ := hsolve.finds hbound hT.toReady hleads
      have hcount := honce own (mem_cons_of_mem _ mem_cons_self)
      refine ⟨g, last, (own, true) :: way, ?_, ?_, ?_, ?_, ?_⟩
      · simp only [given, hvalue, if_true, if_neg hbody, if_neg hown, bind_eq_ok]
        exact ⟨_, _, hresult, hgiven⟩
      · rw [map_cons, htraced.names]
      · intro other hother
        obtain heq | hother := mem_cons.mp hother
        · rw [(Prod.mk.inj heq).1]
          exact hinlined
        · exact htraced.inlined other hother
      · show binds (_ :: _) own = true
        rw [binds_cons, decide_eq_true rfl, Bool.true_or]
      · refine Way.shows_kept.mpr (.cons ((hsaid hcount).imp fun _ => False.elim) fun _ => .inr ?_)
        exact ⟨value, bound.type, nameLoc, bound.inner, rfl, htraced.entered, htraced.shows⟩
    · have hrest := hleads.inRest hown hnameValue
      rw [around, if_neg hown, if_neg hnameValue] at honce ⊢
      have hother {n : String} (hn : n ∈ name :: body.around name) : n ∉ own :: value.binders :=
        fun h => not_mem_of_count (a := own :: value.binders) (honce n hn) h
          (mem_binders_of_way hrest.mem hn)
      have hsame := around_replace (x := own) hnameValue body hrest.mem
      have hcopied : (body.replace own value).LeadsTo table name := by
        refine ⟨hclosed, follows_replace hinlined hvalueFollows body hbodyFollows,
          mem_binders_replace body hrest.mem, fun n hn => ?_⟩
        rw [hsame] at hn
        rw [count_binders_replace fun h => hother hn (mem_cons_of_mem _ h)]
        exact hrest.once n hn
      obtain ⟨g, last, way, hgiven, htraced⟩ := hsolve.finds hresult hready hcopied
      rw [hsame] at htraced
      refine ⟨g, last, way, ?_, htraced.names, htraced.inlined, ?_, htraced.shows.cons fun h => ?_⟩
      · simp only [given, hvalue, if_true, if_pos hrest.mem]
        exact hgiven
      · refine htraced.entered.of_binds fun hbinds => ?_
        rw [binds_cons, hbinds, Bool.or_true]
      · rw [htraced.names] at h
        exact hother h mem_cons_self

/-- A declaration that is not inlined is in scope in the body, and the body is joined with
the value. -/
theorem once_traced {own : String} {single : Ty} {opened : Checker} (hvalue : value.isValue = false)
    (hbound : solve ctx value checker = .ok bound middle)
    (hsingle : (bound.type.applying bound.principal).instantiate none middle = .ok single opened)
    (hbindable : ctx.checkBindable own (some nameLoc) = .ok ())
    (hresult : solve (⟨opened.stamp, own, .typed single nameLoc false⟩ :: ctx) body { opened with
      stamp := opened.stamp + 1 } = .ok result final)
    (hleads : (letIn own value body nameLoc loc).LeadsTo table name) :
    Finds table name (given name solve follow ctx (.letIn own value body nameLoc loc)) checker
      ((letIn own value body nameLoc loc).around name)
      (result.inner.merge bound.inner final.stamp).1 := by
  obtain ⟨hterm, -, -, honce⟩ := id hleads
  simp only [isClosed, allFunctions, and_eq_true] at hterm
  have hfree := find?_eq_none_of_checkBindable hbindable
  have hclosed : body.isClosed := hterm.2
  obtain ⟨-, hle, T, hinner, hT⟩ := hready.bindOnce hregular own nameLoc hterm.1 hbound hsingle
  obtain ⟨T', hT', hinner', hbodyBuilt⟩ := hT.run hregular hclosed hresult
  have hinner := hT'.larger _ hinner
  have habsorbs := hT'.heap.absorbs_merge hinner' hinner
  -- both contexts know the declaration as the value in scope or not at all
  have hsaid (hcount : (own :: (value.binders ++ body.binders)).count own ≤ 1) :
      (result.inner.merge bound.inner final.stamp).1.Says [own]
        (· = .typed single nameLoc false) := by
    have hnot := not_mem_of_count (a := [own]) hcount (mem_singleton_self _)
    refine .merge hT'.heap hinner' hinner (hsaying.bound hT hresult hclosed hfree
      fun h => hnot (mem_append_right _ h)) (.imp ?_ fun _ => False.elim)
    refine hsaying hbound hterm.1 hready (fixed_false _) (fun n hn hbinder => hnot ?_)
      (.of_find?_eq_none (by simpa using hfree))
    rw [mem_singleton.mp hn] at hbinder
    exact mem_append_left _ hbinder
  by_cases hown : own = name
  · subst hown
    rw [around, if_pos rfl]
    have hcount := honce own mem_cons_self
    have hnameValue : own ∉ value.binders := fun h =>
      not_mem_of_count (a := [own]) hcount (mem_singleton_self _) (mem_append_left _ h)
    refine ⟨⟨single, []⟩, opened, [], ?_,
      .own ((hsaid hcount).imp fun _ heq => .inl ⟨nameLoc, heq⟩)⟩
    simp only [given, hvalue, Bool.false_eq_true, if_false, if_neg hnameValue, if_true,
      bind_eq_ok, pure_eq_ok]
    exact ⟨_, _, hbound, _, _, hsingle, rfl, rfl⟩
  · by_cases hnameValue : name ∈ value.binders
    · replace hleads := hleads.inValue hown hnameValue
      rw [around, if_neg hown, if_pos hnameValue] at honce ⊢
      have hcount {n : String} (hn : n ∈ name :: value.around name) :
          (own :: (value.binders ++ body.binders)).count n ≤ 1 :=
        honce n (cons_subset_cons _ (subset_cons_self _ _) hn)
      have hmem {n : String} := mem_binders_of_way (n := n) hnameValue
      obtain ⟨g, last, way, hgiven, htraced⟩ := hsolve.finds hbound hready hleads
      obtain ⟨-, -, -, hvalueBuilt⟩ := hready.run hregular hterm.1 hbound
      have hsilent : result.inner.Says (name :: way.map Prod.fst) fun _ => False := by
        rw [htraced.names]
        refine hsaying hresult hclosed hT (fixed_false _) (fun n hn h => ?_)
          (.cons (.of_find?_eq_none fun n hn => hvalueBuilt.binders n (hmem hn)) fun hn => ?_)
        · exact not_mem_of_count (a := own :: value.binders) (hcount hn)
            (mem_cons_of_mem _ (hmem hn)) h
        · exact absurd (mem_append_left _ (hmem hn))
            (not_mem_of_count (a := [own]) (hcount hn) (mem_singleton_self _))
      refine ⟨g, last, (own, false) :: way, ?_, ?_, ?_, ?_, ?_⟩
      · simp only [given, hvalue, Bool.false_eq_true, if_false, if_pos hnameValue]
        exact hgiven
      · rw [map_cons, htraced.names]
      · intro other hother
        obtain heq | hother := mem_cons.mp hother
        · cases heq
        · exact htraced.inlined other hother
      · exact htraced.entered.of_binds habsorbs.binds_of_item
      · refine Way.shows_once.mpr
          ⟨(hsaid (honce own (mem_cons_of_mem _ mem_cons_self))).imp
            fun _ heq => ⟨single, nameLoc, heq⟩, ?_⟩
        exact .merge hT'.heap hinner' hinner (Way.shows_of_says hsilent) htraced.shows
    · replace hleads := hleads.inRest hown hnameValue
      rw [around, if_neg hown, if_neg hnameValue] at honce ⊢
      have hmem {n : String} := mem_binders_of_way (n := n) hleads.mem
      obtain ⟨g, last, way, hgiven, htraced⟩ := hsolve.finds hresult hT hleads
      have hsilent : bound.inner.Says (name :: way.map Prod.fst) fun _ => False := by
        rw [htraced.names]
        refine hsaying hbound hterm.1 hready (fixed_false _) (fun n hn h => ?_)
          (.of_find?_eq_none fun n hn => find?_eq_none_of_cons (hbodyBuilt.binders n (hmem hn)))
        exact not_mem_of_count (a := own :: value.binders) (honce n hn)
          (mem_cons_of_mem _ h) (hmem hn)
      refine ⟨g, last, way, ?_, htraced.names, htraced.inlined,
        htraced.entered.of_binds habsorbs.binds_of_binds,
        .merge hT'.heap hinner' hinner htraced.shows (Way.shows_of_says hsilent)⟩
      simp only [given, hvalue, Bool.false_eq_true, if_false, if_neg hnameValue, if_neg hown,
        bind_eq_ok, bindName_eq_ok]
      exact ⟨_, _, hbound, _, _, hsingle, _, _, ⟨hbindable, rfl, rfl⟩, hgiven⟩

/-- A field and a record without it, which binds what the record binds. -/
theorem fields_traced (key : String) (record : Term) (loc : Loc) {base : Term}
    (hparts : SolvesAll solve ctx [base, value] checker solved final)
    (hbinders : base.binders = record.binders) (haround : base.around name = record.around name)
    (hterms : base.isClosed ∧ value.isClosed) (hfollows : base.Follows table ∧ value.Follows table)
    (hname : name ∈ (recordExtend key value record loc).binders)
    (honce : (recordExtend key value record loc).BindsOnce (name :: (recordExtend key
      value record loc).around name)) :
    Finds table name (givenAmong name solve follow ctx [base, value]) checker
      ((recordExtend key value record loc).around name)
      (mergeInner ctx solved final.stamp).1 := by
  rw [binders, mem_append, ← hbinders] at hname
  refine traced_parts hregular hsaying hsolve hready hparts (by simpa using hterms)
    (by simpa using hfollows) (by simpa [bindersIn] using hname.symm) ?_ fun n hn => ?_
  · simp only [aroundIn_pair hname.symm, around, hbinders, haround]
  · have hcount := honce n hn
    simp only [binders, count_append] at hcount
    simp only [bindersIn, append_nil, count_append, hbinders]
    omega

/-- One level of inference has a local name in its context with the type that it gave. -/
theorem traced_step {inferred : Inferred} (hsteps : Steps solve ctx term checker inferred final)
    (hleads : term.LeadsTo table name) :
    Finds table name (given name solve follow ctx term) checker (term.around name)
      (inferred.inner.getD ctx) := by
  obtain ⟨hterm, hfollows, hname, honce⟩ := id hleads
  cases hsteps with
  | reference | boolean | number | string | unit | emptyRecord => cases hname
  | thunk hbody => exact hsolve.finds hbody hready (hleads.inBody rfl)
  | settled hbindable hbody hsolution =>
    refine parameter_traced hregular hsaying hsolve hready [] hbindable hbody ?_ (by simp) hleads
    rw [parameterType, hsolution]
    rfl
  | lettered hbindable hbody hsolution hletter =>
    refine parameter_traced hregular hsaying hsolve hready [_] hbindable hbody ?_
      (forall_mem_singleton.mpr rfl) hleads
    rw [parameterType, hsolution, hletter]
    rfl
  | writtenThunk htype hbody =>
    refine (hsolve.finds hbody hready (hleads.inBody rfl)).imp fun hgiven => ?_
    simp only [given, bind_eq_ok, ofExcept_eq_ok]
    exact ⟨_, _, ⟨htype, rfl⟩, hgiven⟩
  | written htype hbindable hbody =>
    exact written_traced hsaying hsolve hready htype hbindable hbody hleads
  | writtenGeneric htype hplain =>
    simp only [isClosed, allFunctions, and_eq_true] at hterm
    refine (hsolve.finds hplain hready ⟨?_, hfollows, hname, honce⟩).imp fun hgiven => ?_
    · simp only [isClosed, allFunctions, hterm.2, Option.all_none, Bool.and_true]
    · simp only [given, bind_eq_ok, ofExcept_eq_ok]
      exact ⟨_, _, ⟨htype, rfl⟩, hgiven⟩
  | @application _ _ _ _ _ _ _ _ final opened hfunc harg hopen =>
    simp only [isClosed, allFunctions, and_eq_true] at hterm
    rw [Term.Follows] at hfollows
    rw [binders, mem_append] at hname
    have hstamp : opened.stamp = final.stamp := (quiet_instantiate hopen).1
    rw [hstamp]
    refine traced_parts hregular hsaying hsolve hready (.pair hfunc harg) ?_ ?_ ?_
      (aroundIn_pair hname) ?_
    · simpa [isClosed] using hterm
    · simpa using hfollows
    · simpa [bindersIn] using hname
    · simpa [bindersIn, Term.BindsOnce, binders] using honce
  | conditional hcondition hconsequence halternative =>
    simp only [isClosed, allFunctions, and_eq_true, and_assoc] at hterm
    rw [Term.Follows] at hfollows
    rw [binders, mem_append, mem_append, or_assoc] at hname
    refine traced_parts hregular hsaying hsolve hready
      (.cons hcondition (.pair hconsequence halternative)) ?_ ?_ ?_ ?_ ?_
    · simpa [isClosed] using hterm
    · simpa using hfollows
    · simpa [bindersIn] using hname
    · rw [aroundIn, around]
      split
      · rfl
      · rename_i hcondition
        exact aroundIn_pair (hname.resolve_left hcondition)
    · simpa [bindersIn, Term.BindsOnce, binders] using honce
  | array helements =>
    refine (traced_parts hregular hsaying hsolve hready.fresh helements
      (allFunctionsIn_iff.mp hterm) (allFollow_iff.mp hfollows) hname rfl honce).imp
      fun hgiven => ?_
    simp only [given, bind_eq_ok, freshHole_eq_ok]
    exact ⟨_, _, ⟨rfl, rfl⟩, hgiven⟩
  | @extend key value record loc _ _ _ _ _ hrecord hfield hval =>
    simp only [isClosed, allFunctions, and_eq_true] at hterm
    refine (fields_traced hregular hsaying hsolve hready key record loc (.pair hrecord hval)
      rfl rfl hterm.symm hfollows.symm hname honce).imp fun hgiven => ?_
    simp only [given, bind_eq_ok]
    refine ⟨_, _, peek_of_ok hrecord, ?_⟩
    rw [hfield, if_neg (by simp)]
    exact hgiven
  | @overwrite key value record loc _ _ _ _ _ _ _ hrecord hfield hbase hval =>
    simp only [isClosed, allFunctions, and_eq_true] at hterm
    obtain ⟨T, hT, -⟩ := hready.run hregular hterm.2 hrecord
    refine (fields_traced hregular hsaying hsolve hT.toReady key record loc (.pair hbase hval)
      rfl rfl hterm.symm hfollows.symm hname honce).imp fun hgiven => ?_
    simp only [given, bind_eq_ok]
    refine ⟨_, _, peek_of_ok hrecord, ?_⟩
    rw [hfield, if_pos rfl]
    exact bind_eq_ok.mpr ⟨_, _, hrecord, hgiven⟩
  | restrict hrecord | access hrecord => exact hsolve hrecord hterm hfollows hready hname honce
  | letValue hvalue hbindable hresult hbound =>
    exact value_traced hregular hsaying hsolve hready hvalue hbindable hresult hbound hleads
  | letOnce hvalue hbound hsingle hbindable hresult =>
    exact once_traced hregular hsaying hsolve hready hvalue hbound hsingle hbindable hresult
      hleads

end

end Inference

/-- The context of a term has a local name with the type that it was given, if the name and
the declarations around it are bound once in the term. -/
theorem solvesTracing_solve (table : List Local) (name : String) (fuel : Nat) :
    SolvesTracing table name (solve fuel) (givenType name fuel) := by
  induction fuel with
  | zero =>
    intro ctx term checker solved final hrun
    simp [solve, solveWith, infer, bind_eq_ok] at hrun
  | succ fuel ih =>
    intro ctx term checker solved final hrun hterm hfollows S hready hname honce
    simp only [solve, solveWith, bind_eq_ok, pure_eq_ok] at hrun
    obtain ⟨inferred, middle, hinferred, principal, last, hunify, rfl, rfl⟩ := hrun
    exact traced_step (regular_solve fuel)
      (solvesSaying_solve fuel) ih hready (steps_of_step hinferred)
      ⟨hterm, hfollows, hname, honce⟩

end RowScript
