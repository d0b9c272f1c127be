import RowScript.Proofs.BuiltContexts
import RowScript.Proofs.IssuedHoles

/-!
# What inference says about names

A name that a term does not bind is not bound in the context that inference builds for it, except as
the letter of a type parameter. A value that was in scope is still there with the same type.
-/

namespace RowScript

open Term InferenceInvariant List

open Bool (and_eq_true)

open Context (Heap Grown Mapped MappedBinding)

variable {terms : List Term} {solved : List Solved} {body : Term}

namespace Inference

/-- A context of a heap whose placeholders were all handed out. -/
structure Ready (S : Context → Prop) (ctx : Context) (checker : Checker) : Prop where
  heap : Heap none checker.stamp S
  mem : S ctx
  issued : ctx.IssuedBy checker.counter

/-- The same context later on, in a larger heap. -/
structure Advances (S T : Context → Prop) (ctx : Context) (checker final : Checker) : Prop extends
    Ready T ctx final where
  larger : ∀ c, S c → T c
  le : checker.counter ≤ final.counter

/-- Solving that builds contexts in a heap and hands out the placeholders that it uses. -/
structure Regular (solve : Context → Term → CheckM Solved) : Prop where
  keeps : SolvesInHeap solve
  built : ∀ table, SolvesBuilt table solve
  issues : issued.Solves solve

theorem regular_solve (fuel : Nat) : Regular (RowScript.solve fuel) :=
  ⟨solvesInHeap_solve fuel, fun table => solvesBuilt_solve table fuel, issued.solves_solve fuel⟩

/-- A term was solved in a context, not before a number of placeholders was handed out. -/
def SolvedAfter (solve : Context → Term → CheckM Solved) (ctx : Context) (n : Nat) (term : Term)
    (solved : Solved) : Prop :=
  ∃ S checker final, Ready S ctx checker ∧ n ≤ checker.counter ∧
    solve ctx term checker = .ok solved final

section

variable {S : Context → Prop} {solve : Context → Term → CheckM Solved} {ctx : Context}
  {checker final : Checker}

variable (hready : Ready S ctx checker)

include hready

theorem Ready.run (hregular : Regular solve) {term : Term} {solved : Solved} (hterm : term.isClosed)
    (hrun : solve ctx term checker = .ok solved final) :
    ∃ T, Advances S T ctx checker final ∧ T solved.inner ∧
      Built term.locals ctx solved.inner term := by
  obtain ⟨T, hheap, hle, hmem, hinner⟩ := hregular.keeps.grown hready.heap hready.mem hrun
  have hbuilt := hregular.built term.locals hrun hterm
    (term.follows_of_locals fun _ hrow => hrow) hready.heap hready.mem
  have hcounter := (hregular.issues hrun hready.issued.ofContext hterm).le
  exact ⟨T, ⟨⟨hheap, hmem, hready.issued.mono hcounter⟩, hle, hcounter⟩, hinner, hbuilt⟩

theorem Ready.runs (hregular : Regular solve) (hterms : ∀ term ∈ terms, term.isClosed)
    (hrun : SolvesAll solve ctx terms checker solved final) :
    ∃ T, Advances S T ctx checker final ∧
      (∀ s ∈ solved, T s.inner ∧ ∀ {name}, ctx.binds name → s.inner.binds name) ∧
      ∀ s ∈ solved, ∃ term ∈ terms, SolvedAfter solve ctx checker.counter term s := by
  induction hrun generalizing S with
  | nil => exact ⟨S, ⟨hready, fun _ hc => hc, Nat.le_refl _⟩, by simp, by simp⟩
  | @cons term rest s others checker c₁ final hs _ ih =>
    obtain ⟨hterm, hrest⟩ := forall_mem_cons.mp hterms
    obtain ⟨T, hT, hinner, hbuilt⟩ := hready.run hregular hterm hs
    obtain ⟨T', hT', hinners, hsolved⟩ := ih hT.toReady hrest
    refine ⟨T', ⟨hT'.toReady, fun c hc => hT'.larger c (hT.larger c hc),
      Nat.le_trans hT.le hT'.le⟩, forall_mem_cons.mpr
        ⟨⟨hT'.larger _ hinner, hbuilt.described.binds⟩, hinners⟩,
      forall_mem_cons.mpr ⟨⟨term, mem_cons_self, S, checker, c₁, hready,
        Nat.le_refl _, hs⟩, fun other hother => ?_⟩⟩
    obtain ⟨found, hfound, S', c, c', hready', hle, hrun⟩ := hsolved other hother
    exact ⟨found, mem_cons_of_mem _ hfound, S', c, c', hready', Nat.le_trans hT.le hle, hrun⟩

theorem Ready.fresh : Ready S ctx { checker with counter := checker.counter + 1 } :=
  ⟨hready.heap, hready.mem, hready.issued.mono (Nat.le_succ _)⟩

theorem Ready.bind (name : String) {type : Ty} (loc : Loc) (htype : type.IssuedBy checker.counter) :
    ∃ T, (∀ c, S c → T c) ∧ Ready T (⟨checker.stamp, name, .typed type loc false⟩ :: ctx)
      { checker with stamp := checker.stamp + 1 } := by
  obtain ⟨T, hheap, hle, hextended⟩ :=
    hready.heap.push name hready.mem (Context.fits_typed type loc)
  exact ⟨T, hle, hheap, hextended, forall_mem_cons.mpr ⟨htype, hready.issued⟩⟩

theorem Ready.bindParameter (param : Param) :
    ∃ T, Ready T
      (⟨checker.stamp, param.name, .typed (.hole (checker.counter + 1)) param.loc false⟩ :: ctx)
      { checker with counter := checker.counter + 1, stamp := checker.stamp + 1 } := by
  have hhole : (Ty.hole (checker.counter + 1)).IssuedBy (checker.counter + 1) :=
    InferenceInvariant.issued.hole (Nat.succ_pos _) (Nat.le_refl _)
  obtain ⟨T, -, hT⟩ := hready.fresh.bind param.name param.loc hhole
  exact ⟨T, hT⟩

theorem Ready.bindWritten (param : Param) {ascribed arg ret : Ty} {loc : Loc}
    (hterm : (Term.function (some param) body (some ascribed) loc).isClosed)
    (htype : ctx.normalize (some loc) ascribed = .ok (.arrow arg ret)) :
    ∃ T, Ready T (⟨checker.stamp, param.name, .typed arg param.loc false⟩ :: ctx)
      { checker with stamp := checker.stamp + 1 } := by
  simp only [Term.isClosed, Term.allFunctions, and_eq_true] at hterm
  have hallows : InferenceInvariant.issued.allows (some param) (some ascribed) := hterm.1
  have harrow := InferenceInvariant.issued.written hready.issued.ofContext hallows htype
  have harg := (InferenceInvariant.issued.arrow.mp harrow).1
  obtain ⟨T, -, hT⟩ := hready.bind param.name param.loc harg
  exact ⟨T, hT⟩

/-- A declaration that is not inlined gets the type of its value, opened. -/
theorem Ready.bindOnce (hregular : Regular solve) {middle : Checker} {value : Term} {bound : Solved}
    {single : Ty} (name : String) (nameLoc : Loc) (hvalue : value.isClosed)
    (hbound : solve ctx value checker = .ok bound middle)
    (hsingle : (bound.type.applying bound.principal).instantiate none middle = .ok single final) :
    single.IssuedBy final.counter ∧ checker.counter ≤ final.counter ∧
      ∃ T, T bound.inner ∧ Ready T (⟨final.stamp, name, .typed single nameLoc false⟩ :: ctx)
        { final with stamp := final.stamp + 1 } := by
  obtain ⟨T, hT, hinner, -⟩ := hready.run hregular hvalue hbound
  have hfinds := hregular.issues hbound hready.issued.ofContext hvalue
  obtain ⟨hle, hissued⟩ := InferenceInvariant.issued.instantiate (Nat.zero_le _)
    (InferenceInvariant.issued.applying hfinds.ofType hfinds.ofConstraints) hsingle
  have hopened : Ready T ctx final :=
    ⟨(quiet_instantiate hsingle).stamp ▸ hT.heap, hT.mem, hT.issued.mono hle⟩
  obtain ⟨T', hlarger, hT'⟩ := hopened.bind name nameLoc hissued
  exact ⟨hissued, Nat.le_trans hT.le hle, T', hlarger _ hinner, hT'⟩

end

end Inference

namespace Context

/-- Some names stand for nothing in a context but for certain bindings, or for type
parameters. This is said of hidden entries as well, since a merge can bring them out. -/
def Says (names : List String) (P : Binding → Prop) (ctx : Context) : Prop :=
  ∀ entry ∈ ctx, entry.name ∈ names → entry.binding = .typeParameter ∨ P entry.binding

namespace Says

variable {names : List String} {P Q : Binding → Prop} {ctx other added : Context} {name : String}
  {binding : Binding} {stamp next : Nat} {S : Context → Prop}

theorem of_find?_eq_none (hnames : ∀ n ∈ names, ctx.find? n = none) : ctx.Says names P := by
  intro entry hentry hname
  have hbinds := binds_of_mem hentry
  rw [binds, hnames _ hname] at hbinds
  cases hbinds

theorem imp (hsaid : ctx.Says names P) (himp : ∀ binding, P binding → Q binding) :
    ctx.Says names Q :=
  fun entry hentry hname => (hsaid entry hentry hname).imp_right (himp entry.binding)

theorem cons (hsaid : ctx.Says names P)
    (hbinding : name ∈ names → binding = .typeParameter ∨ P binding) :
    Says names P (⟨stamp, name, binding⟩ :: ctx) :=
  forall_mem_cons.mpr ⟨hbinding, hsaid⟩

theorem append (hsaid : ctx.Says names P)
    (hadded : ∀ entry ∈ added, entry.binding = .typeParameter) : Says names P (added ++ ctx) :=
  forall_mem_append.mpr ⟨fun entry hentry _ => .inl (hadded entry hentry), hsaid⟩

theorem merge (hheap : Heap none next S) (hctx : S ctx) (hother : S other)
    (hsaid : ctx.Says names P) (hsaid' : other.Says names P) :
    (ctx.merge other next).1.Says names P := by
  intro entry hentry hname
  obtain hentry | ⟨item, hitem, hitemName, hitemBinding⟩ :=
    (hheap.absorbs_merge hctx hother).mem entry hentry
  · exact hsaid entry hentry hname
  · rw [← hitemBinding]
    exact hsaid' item hitem (hitemName ▸ hname)

theorem mapped {f : Ty → Option Ty} {image : Context} (hsaid : ctx.Says names P)
    (hmapped : Mapped f ctx image)
    (hbinding : ∀ {binding image}, P binding → MappedBinding f binding image → Q image) :
    image.Says names Q := by
  intro entry hentry hname
  obtain ⟨old, hold, holdName, himage⟩ := hmapped.exists_mem entry hentry
  obtain hparameter | hP := hsaid old hold (holdName ▸ hname)
  · rw [hparameter] at himage
    exact .inl himage.eq_typeParameter
  · exact .inr (hbinding hP himage)

theorem mergeInner (hheap : Heap none next S) (hctx : S ctx) (hbase : ctx.Says names P)
    (hinner : ∀ s ∈ solved, S s.inner ∧ ∀ {name}, ctx.binds name → s.inner.binds name)
    (hsaid : ∀ s ∈ solved, s.inner.Says names P) :
    (Inference.mergeInner ctx solved next).1.Says names P := by
  refine (Heap.mergeInner_induction
    (P := fun c => (∀ {name}, ctx.binds name = true → c.binds name = true) ∧ c.Says names P)
    (fun hT ha hb hPa hPb => ⟨fun hname => ?_, merge hT ha hb hPa.2 hPb.2⟩) (fun hP => hP.1) hheap
    hctx ⟨id, hbase⟩ fun s hs => ⟨(hinner s hs).1, (hinner s hs).2, hsaid s hs⟩).1.2
  exact (hT.absorbs_merge ha hb).binds_of_binds (hPa.1 hname)

end Says

end Context

namespace Term

variable {x : String} {replacement : Term}

/-- A name that neither term binds is not bound after a replacement. -/
theorem mem_binders_of_replace {y : String} (term : Term)
    (hy : y ∈ (term.replace x replacement).binders) :
    y ∈ term.binders ∨ y ∈ replacement.binders := by
  refine Decidable.by_contra fun hnot => ?_
  obtain ⟨hterm, hreplacement⟩ := not_or.mp hnot
  exact hereditary_binders.replaced (replaced_replace x replacement term) hreplacement hterm hy

end Term

namespace Inference

/-- Bindings of values whose placeholders were handed out before a certain one. -/
def Fixed (n : Nat) (P : Binding → Prop) : Prop :=
  ∀ binding, P binding → ∃ type loc, binding = .typed type loc false ∧ type.IssuedBy n

/-- Names that a term does not bind stand for what they stood for. -/
def SolvesSaying (solve : Context → Term → CheckM Solved) : Prop :=
  ∀ ⦃ctx term checker solved final⦄, solve ctx term checker = .ok solved final →
    term.isClosed = true → ∀ ⦃S⦄, Ready S ctx checker → ∀ ⦃names P⦄, Fixed checker.counter P →
    (∀ n ∈ names, n ∉ term.binders) → ctx.Says names P → solved.inner.Says names P

theorem Fixed.mono {n m : Nat} {P : Binding → Prop} (hfixed : Fixed n P) (hle : n ≤ m) :
    Fixed m P := by
  intro binding hP
  obtain ⟨type, loc, heq, htype⟩ := hfixed binding hP
  exact ⟨type, loc, heq, InferenceInvariant.issued.mono htype hle⟩

theorem fixed_false (n : Nat) : Fixed n fun _ => False := fun _ h => h.elim

variable {type : Ty} {result : Solved}

/-- A newer placeholder is replaced elsewhere. -/
theorem Fixed.eq_of_mapped {n : Nat} {P : Binding → Prop} (hfixed : Fixed n P)
    {binding image : Binding} (hP : P binding)
    (hmapped : MappedBinding (·.replace? (.hole (n + 1)) type) binding image) :
    image = binding := by
  obtain ⟨own, loc, rfl, hown⟩ := hfixed binding hP
  cases hmapped with
  | global hglobal => cases hglobal
  | leaf =>
    have hnone : own.replace? (.hole (n + 1)) type = none := by
      rw [Ty.replace?, if_neg]
      intro hoccurs
      have hle := hown _ (Ty.mem_holes_of_occurs.mp hoccurs)
      omega
    simp [Context.rebuilt, Context.mapped, hnone]

section

variable {solve : Context → Term → CheckM Solved} {ctx : Context} {S : Context → Prop}
  {checker final : Checker} {names : List String} {P : Binding → Prop}

theorem says_replaceParameter {inner : Context} {next : Nat} (hheap : Heap none next S)
    (hinner : S inner) {n : Nat} (hfixed : Fixed n P) (type : Ty) (hsaid : inner.Says names P) :
    (replaceParameter (n + 1) type inner next).1.Says names P := by
  unfold replaceParameter
  split
  · exact hsaid
  · refine hsaid.mapped (hheap.mapped_mapTypes hinner) fun hP himage => ?_
    rwa [hfixed.eq_of_mapped hP himage]

variable (hregular : Regular solve) (hsolve : SolvesSaying solve) (hready : Ready S ctx checker)
  (hfixed : Fixed checker.counter P) (hsaid : ctx.Says names P)

include hregular hsolve hready hfixed hsaid

theorem says_parts (hterms : ∀ term ∈ terms, term.isClosed)
    (hrun : SolvesAll solve ctx terms checker solved final)
    (hnames : ∀ term ∈ terms, ∀ n ∈ names, n ∉ term.binders) :
    (mergeInner ctx solved final.stamp).1.Says names P := by
  obtain ⟨T, hT, hinner, hsolved⟩ := hready.runs hregular hterms hrun
  refine .mergeInner hT.heap hT.mem hsaid hinner fun s hs => ?_
  obtain ⟨term, hterm, S', c, c', hready', hle, hrun⟩ := hsolved s hs
  exact hsolve hrun (hterms term hterm) hready' (hfixed.mono hle) (hnames term hterm) hsaid

/-- What is decided on a parameter is newer than the names in scope. -/
theorem says_parameter {param : Param}
    (hbody : SolvesBody solve ctx param body checker result final) (hterm : body.isClosed)
    (hnames : ∀ n ∈ names, n ∉ param.name :: body.binders) (type : Ty) :
    (replaceParameter (checker.counter + 1) type result.inner final.stamp).1.Says names P := by
  simp only [mem_cons, not_or] at hnames
  obtain ⟨T, hT⟩ := hready.bindParameter param
  have hresult := hsolve hbody hterm hT (hfixed.mono (Nat.le_succ _))
    (fun n hn => (hnames n hn).2) (hsaid.cons fun hn => absurd rfl (hnames _ hn).1)
  obtain ⟨T', hT', hinner, -⟩ := hT.run hregular hterm hbody
  exact says_replaceParameter hT'.heap hinner hfixed type hresult

/-- One level of inference leaves alone the names that a term does not bind. -/
theorem says_step {term : Term} {inferred : Inferred}
    (hsteps : Steps solve ctx term checker inferred final) (hterm : term.isClosed)
    (hnames : ∀ n ∈ names, n ∉ term.binders) : (inferred.inner.getD ctx).Says names P := by
  cases hsteps with
  | reference | boolean | number | string | unit | emptyRecord => exact hsaid
  | thunk hbody => exact hsolve hbody hterm hready hfixed hnames hsaid
  | settled _ hbody => exact says_parameter hregular hsolve hready hfixed hsaid hbody hterm hnames _
  | lettered _ hbody =>
    exact (says_parameter hregular hsolve hready hfixed hsaid hbody hterm hnames _).append
      (forall_mem_singleton.mpr rfl)
  | writtenThunk htype hbody =>
    simp only [isClosed, allFunctions, and_eq_true] at hterm
    exact hsolve hbody hterm.2 hready hfixed hnames hsaid
  | @written param _ _ _ _ _ _ _ _ htype _ hbody =>
    obtain ⟨T, hT⟩ := hready.bindWritten param hterm htype
    simp only [isClosed, allFunctions, and_eq_true] at hterm
    simp only [binders, Option.map_some, Option.toList_some, cons_append,
      nil_append, mem_cons, not_or] at hnames
    exact hsolve hbody hterm.2 hT hfixed (fun n hn => (hnames n hn).2)
      (hsaid.cons fun hn => absurd rfl (hnames _ hn).1)
  | writtenGeneric _ hplain =>
    simp only [isClosed, allFunctions, and_eq_true] at hterm
    refine hsolve hplain ?_ hready hfixed hnames hsaid
    simp only [isClosed, allFunctions, hterm.2, Option.all_none, Bool.and_true]
  | @application _ _ _ _ _ _ _ _ final opened hfunc harg hopen =>
    simp only [isClosed, allFunctions, and_eq_true] at hterm
    simp only [binders, mem_append, not_or] at hnames
    have hstamp : opened.stamp = final.stamp := (quiet_instantiate hopen).stamp
    rw [hstamp]
    refine says_parts hregular hsolve hready hfixed hsaid ?_ (.pair hfunc harg) ?_
    · simpa [isClosed] using hterm
    · simpa using ⟨fun n hn => (hnames n hn).1, fun n hn => (hnames n hn).2⟩
  | conditional hcondition hconsequence halternative =>
    simp only [isClosed, allFunctions, and_eq_true, and_assoc] at hterm
    simp only [binders, mem_append, not_or] at hnames
    refine says_parts hregular hsolve hready hfixed hsaid ?_
      (.cons hcondition (.pair hconsequence halternative)) ?_
    · simpa [isClosed] using hterm
    · simpa using ⟨fun n hn => (hnames n hn).1.1, fun n hn => (hnames n hn).1.2,
        fun n hn => (hnames n hn).2⟩
  | array helements =>
    refine says_parts hregular hsolve hready.fresh (hfixed.mono (Nat.le_succ _)) hsaid
      (allFunctionsIn_iff.mp hterm) helements fun element helement n hn hbinder => ?_
    exact hnames n hn (mem_bindersIn.mpr ⟨element, helement, hbinder⟩)
  | extend hrecord _ hval =>
    simp only [isClosed, allFunctions, and_eq_true] at hterm
    simp only [binders, mem_append, not_or] at hnames
    refine says_parts hregular hsolve hready hfixed hsaid ?_ (.pair hrecord hval) ?_
    · simpa [isClosed] using hterm.symm
    · simpa using ⟨fun n hn => (hnames n hn).2, fun n hn => (hnames n hn).1⟩
  | overwrite hrecord _ hbase hval =>
    simp only [isClosed, allFunctions, and_eq_true] at hterm
    simp only [binders, mem_append, not_or] at hnames
    obtain ⟨T, hT, -⟩ := hready.run hregular hterm.2 hrecord
    refine says_parts hregular hsolve hT.toReady (hfixed.mono hT.le) hsaid ?_
      (.pair hbase hval) ?_
    · simpa [isClosed, allFunctions] using hterm.symm
    · simpa [binders] using ⟨fun n hn => (hnames n hn).2, fun n hn => (hnames n hn).1⟩
  | restrict hrecord | access hrecord => exact hsolve hrecord hterm hready hfixed hnames hsaid
  | @letValue name value body _ _ _ _ _ _ _ _ _ hresult _ =>
    simp only [isClosed, allFunctions, and_eq_true] at hterm
    simp only [binders, mem_cons, mem_append, not_or] at hnames
    refine (hsolve hresult (allFunctions_replace hterm.1 body hterm.2) hready hfixed
      (fun n hn hbinder => ?_) hsaid).cons fun hn => absurd rfl (hnames name hn).1
    exact (mem_binders_of_replace body hbinder).elim (hnames n hn).2.2 (hnames n hn).2.1
  | @letOnce name _ _ nameLoc _ _ _ _ _ _ _ _ _ hbound hsingle _ hresult =>
    simp only [isClosed, allFunctions, and_eq_true] at hterm
    simp only [binders, mem_cons, mem_append, not_or] at hnames
    have hboundSays := hsolve hbound hterm.1 hready hfixed (fun n hn => (hnames n hn).2.1) hsaid
    obtain ⟨-, hle, T, hinner, hT⟩ :=
      hready.bindOnce hregular name nameLoc hterm.1 hbound hsingle
    have hresultSays := hsolve hresult hterm.2 hT (hfixed.mono hle)
      (fun n hn => (hnames n hn).2.2) (hsaid.cons fun hn => absurd rfl (hnames name hn).1)
    obtain ⟨T', hT', hinner', -⟩ := hT.run hregular hterm.2 hresult
    exact .merge hT'.heap hinner' (hT'.larger _ hinner) hresultSays hboundSays

end

theorem solvesSaying_solve (fuel : Nat) : SolvesSaying (RowScript.solve fuel) :=
  solve_induction (fun ih hsteps _ hterm _ hready _ _ hfixed hnames hsaid =>
    says_step (regular_solve _) ih hready hfixed hsaid hsteps hterm hnames) fuel

/-- A value that is in scope while a term is solved keeps its type. -/
theorem SolvesSaying.bound {solve : Context → Term → CheckM Solved} (hsaying : SolvesSaying solve)
    {ctx : Context} {S : Context → Prop} {checker final : Checker} {stamp : Nat} {name : String}
    {loc : Loc} (hready : Ready S (⟨stamp, name, .typed type loc false⟩ :: ctx) checker)
    (hrun : solve (⟨stamp, name, .typed type loc false⟩ :: ctx) body checker = .ok result final)
    (hbody : body.isClosed) (hfree : ctx.find? name = none) (hname : name ∉ body.binders) :
    result.inner.Says [name] (· = .typed type loc false) := by
  have hissued : type.IssuedBy checker.counter := hready.issued _ mem_cons_self
  have hfixed : Fixed checker.counter (· = .typed type loc false) :=
    fun binding heq => ⟨type, loc, heq, hissued⟩
  refine hsaying hrun hbody hready hfixed (by simpa using hname) (.cons ?_ fun _ => .inr rfl)
  exact .of_find?_eq_none (by simpa using hfree)

end Inference

end RowScript
