import RowScript.Proofs.HoverSearch

/-!
# What hovering shows

Hovering over the use of a name shows the name, and hovering over a local declaration its inferred
type. Exceptions are the later fields of an object, names that are bound twice and names spelled
like a type variable.
-/

namespace RowScript

open Finder Local Option List

open Context (Described DescribedBinding MappedBinding)

namespace Context

mutual

/-- The names of the type parameters along a chain, also in the contexts kept for the
values of given names. -/
def chainParameters (inside : String → Bool) : List (Entry Binding) → List String
  | [] => []
  | entry :: older => entryParameters inside entry ++ chainParameters inside older

def entryParameters (inside : String → Bool) : Entry Binding → List String
  | ⟨_, name, binding⟩ => bindingParameters inside name binding

def bindingParameters (inside : String → Bool) (name : String) : Binding → List String
  | .typeParameter => [name]
  | .defined _ _ _ (some inner) _ => if inside name then chainParameters inside inner else []
  | _ => []

end

/-- The names of the type parameters in a context, also in the contexts kept for the
values of given names. -/
def typeParameters (inside : String → Bool) (ctx : Context) : List String :=
  chainParameters inside ctx

variable {inside : String → Bool} {table : List Local} {scope ctx inner : Context} {name : String}
  {binding : Binding}

theorem bindingParameters_subset (hfind : ctx.find? name = some binding) :
    ∀ n ∈ bindingParameters inside name binding, n ∈ ctx.typeParameters inside := by
  induction ctx with
  | nil => cases hfind
  | cons entry older ih =>
    intro n hn
    rw [typeParameters, chainParameters, entryParameters, mem_append]
    rw [find?_cons] at hfind
    split at hfind
    · rename_i heq
      obtain rfl := some.inj hfind
      exact .inl (heq ▸ hn)
    · exact .inr (ih hfind n hn)

/-- A name that is not spelled like a type parameter is not hidden by one. -/
theorem ne_typeParameter (hname : name ∉ ctx.typeParameters inside)
    (hfind : ctx.find? name = some binding) : binding ≠ .typeParameter := by
  rintro rfl
  exact hname (bindingParameters_subset hfind name (by simp [bindingParameters]))

theorem Described.find? (hdescribed : Described table scope ctx) (hnew : scope.find? name = none)
    (hfind : ctx.find? name = some binding) : DescribedBinding table scope ctx name binding := by
  obtain ⟨entry, hentry, rfl⟩ := map_eq_some_iff.mp hfind
  have hname : entry.name = name := by simpa using find?_some hentry
  cases hdescribed with
  | mk _ _ hdescribed =>
    rw [← hname] at hnew ⊢
    exact hdescribed entry (mem_of_find?_eq_some hentry) hnew

/-- A name that is bound and not hidden stands for a value with a type. -/
theorem Described.exists_isShown (hdescribed : Described table scope ctx) (hbinds : ctx.binds name)
    (husable : scope.Usable name) (hname : name ∉ ctx.typeParameters inside) :
    ∃ binding, ctx.find? name = some binding ∧ binding.isShown := by
  obtain ⟨binding, hfind⟩ := isSome_iff_exists.mp hbinds
  have hne := ne_typeParameter hname hfind
  refine ⟨binding, hfind, ?_⟩
  cases hscope : scope.find? name with
  | none =>
    cases hdescribed.find? hscope hfind with
    | typeParameter => exact absurd rfl hne
    | typed => rfl
    | defined => rfl
  | some old =>
    cases hdescribed with
    | mk hold =>
      obtain ⟨found, hfound, hsame⟩ := hold hscope
      obtain rfl := some.inj (hfind.symm.trans hfound)
      rw [← binding.isShown_outline, hsame.resolve_left hne, old.isShown_outline]
      exact husable hscope

end Context

namespace Local

/-- Whether the names of declarations that may be inlined are bound once. -/
def distinct (table : List Local) : Bool :=
  table.all fun row => row.value.isNone || (table.filter (·.name = row.name)).length = 1

variable {table : List Local} {row other : Local}

/-- Two rows of one name are the same, if one of them may be inlined. -/
theorem eq_of_distinct (hdistinct : distinct table) (hrow : row ∈ table) (hvalue : row.value.isSome)
    (hother : other ∈ table) (hname : other.name = row.name) : other = row := by
  have hcount := all_eq_true.mp hdistinct row hrow
  rw [isNone_eq_false_iff.mpr hvalue, Bool.false_or, decide_eq_true_eq,
    length_eq_one_iff] at hcount
  obtain ⟨only, honly⟩ := hcount
  have hrow' : row ∈ [only] := honly ▸ mem_filter.mpr ⟨hrow, by simp⟩
  have hother' : other ∈ [only] := honly ▸ mem_filter.mpr ⟨hother, by simpa using hname⟩
  rw [mem_singleton.mp hrow', mem_singleton.mp hother']

theorem inlined_iff {name : String} :
    inlined table name ↔ ∃ row ∈ table, row.name = name ∧ row.value.isSome := by
  simp [inlined]

end Local

namespace Term

mutual

/-- The uses of names that hovering reaches, with their ranges. Left out are the fields of
an object after the first one, and the uses of an inlined name inside of an inlined value
that it is declared outside of. `declared` lists the names that were declared since. -/
def uses (inlined : String → Bool) (declared : List String) : Term → List (String × Loc)
  | .reference name loc =>
    if loc = .synthetic || (inlined name && !declared.contains name) then [] else [(name, loc)]
  | .boolean _ | .number _ | .string _ | .unit _ | .emptyRecord _ => []
  | .function _ body _ _ => uses inlined declared body
  | .letIn name value body _ _ =>
    uses inlined (if inlined name then [] else declared) value ++
      uses inlined (name :: declared) body
  | .application a b _ => uses inlined declared a ++ uses inlined declared b
  | .recordExtend _ value record loc =>
    uses inlined declared record ++
      if record.extendsIn loc then [] else uses inlined declared value
  | .conditional a b c _ =>
    uses inlined declared a ++ uses inlined declared b ++ uses inlined declared c
  | .recordRestrict _ record _ | .fieldAccess _ record _ => uses inlined declared record
  | .array elements _ => usesIn inlined declared elements

def usesIn (inlined : String → Bool) (declared : List String) : List Term → List (String × Loc)
  | [] => []
  | term :: rest => uses inlined declared term ++ usesIn inlined declared rest

end

end Term

/-- A mark at which hovering shows a use of a name. -/
structure Mark.Shows (mark : Mark) (name : String) (loc : Loc) : Prop where
  kind_eq : mark.kind = .variableUsage
  name_eq : mark.name = name
  loc_eq : mark.loc = loc
  isOpen : mark.isOpen
  isShown : ∃ binding, mark.ctx.find? name = some binding ∧ binding.isShown

theorem Mark.Shows.exists_symbol {mark : Mark} {name : String} {loc : Loc}
    (hshows : mark.Shows name loc) :
    ∃ symbol, valueSymbol mark.ctx mark.kind mark.name = some symbol ∧
      symbol.kind = .variableUsage ∧ symbol.name = name := by
  obtain ⟨binding, hfind, hshown⟩ := hshows.isShown
  rw [hshows.kind_eq, hshows.name_eq, valueSymbol, hfind]
  unfold Binding.isShown at hshown
  split at hshown
  · exact ⟨_, rfl, rfl, rfl⟩
  · exact ⟨_, rfl, rfl, rfl⟩
  · cases hshown

theorem Finder.instantiated_kind (finder : Finder) (callee : Loc) (symbol : Symbol) :
    (finder.instantiated callee symbol).kind = symbol.kind := by
  unfold instantiated
  split <;> rfl

theorem Finder.instantiated_name (finder : Finder) (callee : Loc) (symbol : Symbol) :
    (finder.instantiated callee symbol).name = symbol.name := by
  unfold instantiated
  split <;> rfl

namespace Term

/-- What holds where a search for a name looks into a term: the context is described by
the table and has what the term needs. Local values that may be inlined have names of
their own, and these names and the one searched for are not hidden by type parameters. -/
structure Seen (table : List Local) (name : String) (scope ctx : Context) (term : Term) :
    Prop where
  described : Described table scope ctx
  needs : ∀ n ∈ term.needs (inlined table), ctx.binds n ∧ scope.Usable n
  binders : ∀ n ∈ term.binders, scope.find? n = none
  locals : ∀ row ∈ term.locals, row ∈ table
  distinct : distinct table
  plain : ∀ n, n = name ∨ inlined table n →
    n ∉ ctx.typeParameters (inlined table)

variable {table : List Local} {sought : String} {scope ctx : Context} {term : Term}

theorem Seen.part {part : Term} (hseen : Seen table sought scope ctx term)
    (hneeds : ∀ n ∈ part.needs (inlined table), n ∈ term.needs (inlined table))
    (hbinders : ∀ n ∈ part.binders, n ∈ term.binders)
    (hlocals : ∀ row ∈ part.locals, row ∈ term.locals) : Seen table sought scope ctx part :=
  ⟨hseen.described, fun n hn => hseen.needs n (hneeds n hn),
    fun n hn => hseen.binders n (hbinders n hn),
    fun row hrow => hseen.locals row (hlocals row hrow), hseen.distinct, hseen.plain⟩

theorem Seen.parts {a b : Term} (hseen : Seen table sought scope ctx term)
    (hneeds : term.needs (inlined table) = a.needs (inlined table) ++ b.needs (inlined table))
    (hbinders : term.binders = a.binders ++ b.binders)
    (hlocals : term.locals = a.locals ++ b.locals) :
    Seen table sought scope ctx a ∧ Seen table sought scope ctx b := by
  constructor
  all_goals
    exact hseen.part (by simp +contextual [hneeds]) (by simp +contextual [hbinders])
      (by simp +contextual [hlocals])

section LetIn

variable {name : String} {value body : Term} {nameLoc loc : Loc}

variable (hseen : Seen table sought scope ctx (.letIn name value body nameLoc loc))

include hseen

theorem Seen.letBody : Seen table sought scope ctx body := by
  refine hseen.part (fun n hn => ?_) (fun n hn => ?_) fun row hrow => ?_
  · rw [Term.needs, List.mem_cons, List.mem_append]
    exact .inr (.inr hn)
  · rw [Term.binders, List.mem_cons, List.mem_append]
    exact .inr (.inr hn)
  · rw [Term.locals, List.mem_cons, List.mem_append]
    exact .inr (.inr hrow)

/-- The value of a declaration that is not inlined is looked into in the same context. -/
theorem Seen.value_once (hinlined : inlined table name = false) :
    innerContext ctx name = ctx ∧ Seen table sought scope ctx value := by
  constructor
  · have hfree : scope.find? name = none := hseen.binders name (by simp [Term.binders])
    unfold innerContext
    split
    · rename_i hfind
      cases hseen.described.find? hfree hfind with
      | defined _ _ hrow hvalue =>
        have hsome : inlined table _ :=
          inlined_iff.mpr ⟨_, hrow, rfl, by rw [hvalue]; rfl⟩
        rw [hinlined] at hsome
        cases hsome
    · rfl
  · refine hseen.part (fun n hn => ?_) (fun n hn => ?_) fun row hrow => ?_
    · rw [Term.needs, List.mem_cons, List.mem_append, hinlined]
      exact .inr (.inl hn)
    · rw [Term.binders, List.mem_cons, List.mem_append]
      exact .inr (.inl hn)
    · rw [Term.locals, List.mem_cons, List.mem_append]
      exact .inr (.inl hrow)

/-- The value of a declaration that may be inlined has a context of its own, or is looked
into in the same one if it was not inlined. -/
theorem Seen.value_inlined (hinlined : inlined table name) :
    ∃ inside, Seen table sought inside (innerContext ctx name) value := by
  have hfree : scope.find? name = none := hseen.binders name (by simp [Term.binders])
  have hbinders : ∀ n ∈ value.binders, n ∈ (letIn name value body nameLoc loc).binders := by
    intro n hn
    rw [Term.binders, List.mem_cons, List.mem_append]
    exact .inr (.inl hn)
  have hlocals : ∀ row ∈ value.locals, row ∈ table := by
    intro row hrow
    refine hseen.locals row ?_
    rw [Term.locals, List.mem_cons, List.mem_append]
    exact .inr (.inl hrow)
  -- there is one row of this name, and its value is this value
  have hvalue {row : Local} (hrow : row ∈ table) (hrowName : row.name = name) :
      row.value = some value := by
    obtain ⟨found, hfound, hfoundName, hsome⟩ := inlined_iff.mp hinlined
    have hown := hseen.locals _ mem_cons_self
    have heq := eq_of_distinct hseen.distinct hfound hsome hown hfoundName.symm
    rw [eq_of_distinct hseen.distinct hfound hsome hrow (hrowName.trans hfoundName.symm), ← heq]
    rw [← heq] at hsome
    split at hsome
    · rename_i hinert
      rw [if_pos hinert]
    · cases hsome
  obtain ⟨binding, hfind⟩ : ∃ binding, ctx.find? name = some binding :=
    isSome_iff_exists.mp (hseen.needs name (by simp [Term.needs])).1
  have hdescribed := hseen.described.find? hfree hfind
  cases hdescribed with
  | typeParameter =>
    exact absurd rfl (Context.ne_typeParameter (hseen.plain name (.inr hinlined)) hfind)
  | typed type hrow hneeds =>
    refine ⟨scope, ?_⟩
    rw [innerContext, hfind]
    exact ⟨hseen.described, hneeds (hvalue hrow rfl), fun n hn => hseen.binders n (hbinders n hn),
      hlocals, hseen.distinct, hseen.plain⟩
  | defined term type hrow hwritten hinner hneeds hinnerBinders =>
    rename_i inside inner row written
    obtain rfl : written = value := some.inj (hwritten.symm.trans (hvalue hrow rfl))
    refine ⟨inside, ?_⟩
    rw [innerContext, hfind]
    refine ⟨hinner, hneeds, hinnerBinders, hlocals, hseen.distinct,
      fun n hn hparameter => hseen.plain n hn ?_⟩
    refine Context.bindingParameters_subset hfind n ?_
    rwa [Context.bindingParameters, hinlined, if_pos rfl]

end LetIn

section Uses

variable {name : String} {loc : Loc} {declared : List String} {use : String × Loc}

theorem mem_usesIn {inlined : String → Bool} {terms : List Term} :
    use ∈ usesIn inlined declared terms ↔ ∃ term ∈ terms, use ∈ term.uses inlined declared := by
  induction terms with
  | nil => simp [usesIn]
  | cons term rest ih => simp [usesIn, ih]

theorem exists_mark_of_mem_uses (term : Term) (hseen : Seen table name scope ctx term)
    (hdeclared : ∀ n ∈ declared, ctx.binds n ∧ scope.Usable n)
    (huse : (name, loc) ∈ term.uses (inlined table) declared) :
    ∃ mark ∈ term.marks ctx true, mark.Shows name loc := by
  induction term using induct generalizing scope ctx declared with
  | reference own ownLoc =>
    rw [uses] at huse
    split at huse
    · cases huse
    · rename_i hcondition
      obtain ⟨rfl, rfl⟩ := Prod.mk.inj (mem_singleton.mp huse)
      simp only [Bool.or_eq_true, decide_eq_true_eq, Bool.and_eq_true, Bool.not_eq_true', not_or,
        not_and, Bool.not_eq_false, contains_iff_mem] at hcondition
      rw [marks, if_neg hcondition.1]
      refine ⟨_, mem_singleton_self _, rfl, rfl, rfl, rfl, ?_⟩
      have hbound : ctx.binds name ∧ scope.Usable name := by
        cases hown : inlined table name with
        | true => exact hdeclared name (hcondition.2 hown)
        | false => exact hseen.needs name (by simp [needs, hown])
      exact hseen.described.exists_isShown hbound.1 hbound.2 (hseen.plain name (.inl rfl))
  | function param body ascribed ownLoc ih =>
    have hbody : Seen table name scope ctx body :=
      hseen.part (fun _ hn => hn) (fun _ hn => mem_append_right _ hn)
        fun _ hrow => mem_append_right _ hrow
    have hmark := ih hbody hdeclared huse
    cases param with
    | none => exact hmark
    | some param => exact exists_mark_right (a := [_]) hmark
  | letIn own value body nameLoc ownLoc ihvalue ihbody =>
    rw [uses, mem_append] at huse
    refine exists_mark_right (a := [_]) ?_
    obtain huse | huse := huse
    · refine exists_mark_left ?_
      cases hown : inlined table own with
      | true =>
        rw [hown, if_pos rfl] at huse
        obtain ⟨inside, hvalue⟩ := hseen.value_inlined hown
        exact ihvalue hvalue (by simp) huse
      | false =>
        rw [hown, if_neg (by simp)] at huse
        obtain ⟨hinner, hvalue⟩ := hseen.value_once hown
        rw [hinner]
        exact ihvalue hvalue hdeclared huse
    · have hown := hseen.needs own (by simp [needs])
      exact exists_mark_right
        (ihbody hseen.letBody (forall_mem_cons.mpr ⟨hown, hdeclared⟩) huse)
  | application func arg ownLoc ihfunc iharg =>
    obtain ⟨hfunc, harg⟩ := hseen.parts rfl rfl rfl
    obtain huse | huse := mem_append.mp huse
    · exact exists_mark_left (ihfunc hfunc hdeclared huse)
    · exact exists_mark_right (iharg harg hdeclared huse)
  | conditional condition consequence alternative ownLoc ihcondition ihconsequence ihalternative =>
    have hparts : Seen table name scope ctx (.application condition consequence ownLoc) ∧
      Seen table name scope ctx alternative := hseen.parts rfl rfl rfl
    obtain ⟨hcondition, hconsequence⟩ := hparts.1.parts rfl rfl rfl
    rw [uses, mem_append, mem_append] at huse
    obtain (huse | huse) | huse := huse
    · exact exists_mark_left (exists_mark_left (ihcondition hcondition hdeclared huse))
    · exact exists_mark_left (exists_mark_right (ihconsequence hconsequence hdeclared huse))
    · exact exists_mark_right (ihalternative hparts.2 hdeclared huse)
  | recordExtend key value record ownLoc ihvalue ihrecord =>
    obtain ⟨hvalue, hrecord⟩ := hseen.parts rfl rfl rfl
    rw [uses, mem_append] at huse
    obtain huse | huse := huse
    · exact exists_mark_left (ihrecord hrecord hdeclared huse)
    · split at huse
      · cases huse
      · rename_i hextends
        refine exists_mark_right ?_
        rw [Bool.eq_false_iff.mpr hextends]
        exact ihvalue hvalue hdeclared huse
  | recordRestrict _ record _ ih | fieldAccess _ record _ ih =>
    exact ih (hseen.part (fun _ h => h) (fun _ h => h) fun _ h => h) hdeclared huse
  | array elements ownLoc ih =>
    obtain ⟨element, helement, huse⟩ := mem_usesIn.mp huse
    have helementSeen : Seen table name scope ctx element :=
      hseen.part (fun n hn => mem_needsIn.mpr ⟨element, helement, hn⟩)
        (fun n hn => mem_bindersIn.mpr ⟨element, helement, hn⟩)
        fun row hrow => mem_localsIn.mpr ⟨element, helement, hrow⟩
    obtain ⟨mark, hmark, hshows⟩ := ih element helement helementSeen hdeclared huse
    exact ⟨mark, mem_marksAll.mpr ⟨element, helement, hmark⟩, hshows⟩
  | boolean | number | string | unit | emptyRecord => cases huse

theorem exists_child_of_mem_uses {inlined : String → Bool}
    (huse : use ∈ term.uses inlined declared) :
    (∃ own, term = .reference own use.2 ∧ use.2 ≠ .synthetic) ∨
      ∃ child ∈ term.children, ∃ declared, use ∈ child.uses inlined declared := by
  cases term with
  | reference own loc => grind [uses]
  | _ => grind [uses, children, mem_usesIn]

theorem loc_mem_marks_of_child {child : Term} (hchild : child ∈ term.children)
    (hloc : ∀ ctx isOpen, loc ∈ (child.marks ctx isOpen).map Mark.loc) (ctx : Context)
    (isOpen : Bool) : loc ∈ (term.marks ctx isOpen).map Mark.loc := by
  cases term with
  | function param => cases param <;> grind [marks, children]
  | array elements _ =>
    obtain ⟨mark, hmark, hloc⟩ := mem_map.mp (hloc ctx isOpen)
    exact mem_map.mpr ⟨mark, mem_marksAll.mpr ⟨child, hchild, hmark⟩, hloc⟩
  | _ => grind [marks, children]

/-- Every use is at the place of a mark, whatever the context is. -/
theorem loc_mem_marks_of_mem_uses {inlined : String → Bool} (term : Term) (ctx : Context)
    (isOpen : Bool) (huse : (name, loc) ∈ term.uses inlined declared) :
    loc ∈ (term.marks ctx isOpen).map Mark.loc := by
  induction term using inductChildren generalizing declared ctx isOpen with
  | step term ih =>
    obtain ⟨own, rfl, hwritten⟩ | ⟨child, hchild, declared, huse⟩ := exists_child_of_mem_uses huse
    · simp [marks, hwritten]
    · exact loc_mem_marks_of_child hchild (fun ctx isOpen => ih child hchild ctx isOpen huse) ctx
        isOpen

end Uses

end Term

/-- Whether a name is spelled like a type variable of a command, one that was chosen for
its term or for a local value in it. -/
def Analysis.hides (analysis : Analysis) (command : Command) (name : String) : Bool :=
  match command.term?, analysis.kept? command with
  | some term, some kept => (kept.typeParameters (inlined term.locals)).contains name
  | _, _ => false

section Symbol

variable {fuel : Nat} {text : List Char} {analysis : Analysis} {command : Command} {term : Term}
  {name : String} {loc : Loc}

/-- Hovering over the use of a name shows the name. The use stands in a script that was
analysed without fault, and is none of those that a search does not reach. No other command
covers its position, local values that may be inlined have names of their own, and neither
their names nor the name that is used are spelled like a type variable of the command. -/
theorem Analysis.symbolAt_use
    (hrun : analyze fuel {} (preludeContext fuel) text = .ok analysis)
    (hfault : analysis.fault = none) (hcommand : command ∈ analysis.commands)
    (hterm : command.term? = some term)
    (huse : (name, loc) ∈ term.uses (Local.inlined term.locals) [])
    (halone : ∀ other ∈ analysis.commands, other.covers loc.start = true → other = command)
    (hdistinct : Local.distinct term.locals = true) (hname : analysis.hides command name = false)
    (hinlined : ∀ n, Local.inlined term.locals n = true → analysis.hides command n = false) :
    ∃ symbol, analysis.symbolAt loc.start.line loc.start.column = some symbol ∧
      symbol.kind = .variableUsage ∧ symbol.name = name := by
  obtain ⟨kept, hkept⟩ := exists_kept? hrun hfault hcommand hterm
  have hplain {n : String} (hn : analysis.hides command n = false) :
      n ∉ kept.typeParameters (Local.inlined term.locals) := by
    simpa [Analysis.hides, hterm, hkept] using hn
  obtain ⟨place, hplace, rfl⟩ := mem_map.mp (term.loc_mem_marks_of_mem_uses kept true huse)
  obtain ⟨⟨checked⟩, -⟩ := symbolAt_mark hrun hfault hcommand hterm hkept hplace halone
  have hbuilt := checked.built.renamed checked.renamed
  have hseen : term.Seen term.locals name checked.scope kept := by
    refine ⟨hbuilt.described, hbuilt.needs, hbuilt.binders, fun _ hrow => hrow, hdistinct, ?_⟩
    rintro n (rfl | hn)
    · exact hplain hname
    · exact hplain (hinlined n hn)
  obtain ⟨mark, hmark, hshows⟩ := Term.exists_mark_of_mem_uses term hseen (by simp) huse
  rw [← hshows.loc_eq] at halone ⊢
  obtain ⟨-, hfinds⟩ := symbolAt_mark hrun hfault hcommand hterm hkept hmark halone
  obtain ⟨symbol, hsymbol, hkind, hsymbolName⟩ := hshows.exists_symbol
  rw [Finder.FindsMark, if_pos hshows.isOpen, hsymbol] at hfinds
  obtain hfinds | ⟨-, callee, hfinds⟩ := hfinds
  · exact ⟨symbol, hfinds, hkind, hsymbolName⟩
  · exact ⟨_, hfinds, (Finder.instantiated_kind ..).trans hkind,
      (Finder.instantiated_name ..).trans hsymbolName⟩

end Symbol

/-- The parameter `x` of a function is used inside of a local function, which is inlined,
and is shown there. -/
theorem Analysis.symbolAt_use_captured :
    ∃ analysis symbol, analyze 60 {} (preludeContext 60)
        "const f = x => { const k = y => [x]; return k(x); };".toList = .ok analysis ∧
      analysis.fault = none ∧ analysis.symbolAt 1 33 = some symbol ∧ symbol.name = "x" := by
  have hpasses : Except.passes (analyze 60 {} (preludeContext 60)
      "const f = x => { const k = y => [x]; return k(x); };".toList) (fun analysis =>
        analysis.fault.isNone && decide (analysis.commands.length = 1) &&
          analysis.commands.all fun command => command.term?.any fun term =>
            (term.uses (Local.inlined term.locals) []).contains ("x", ⟨⟨1, 33⟩, ⟨1, 34⟩⟩) &&
              Local.distinct term.locals && !analysis.hides command "x" &&
              term.locals.all fun row => !analysis.hides command row.name) = true := by
    rw [preludeContext_eq, String.toList_ofList]
    decide +kernel
  obtain ⟨analysis, hrun, htest⟩ := Except.exists_of_passes hpasses
  simp only [Bool.and_eq_true, Option.isNone_iff_eq_none, decide_eq_true_eq] at htest
  obtain ⟨⟨hfault, hlength⟩, hcommands⟩ := htest
  obtain ⟨command, hcommand⟩ := List.length_eq_one_iff.mp hlength
  rw [hcommand, List.all_cons, List.all_nil, Bool.and_true, Option.any_eq_true] at hcommands
  obtain ⟨term, hterm, htest⟩ := hcommands
  simp only [Bool.and_eq_true, List.contains_iff_mem, Bool.not_eq_true', List.all_eq_true] at htest
  obtain ⟨⟨⟨huse, hdistinct⟩, hname⟩, hlocals⟩ := htest
  have hinlined : ∀ n, Local.inlined term.locals n = true → analysis.hides command n = false := by
    intro n hn
    obtain ⟨row, hrow, rfl, -⟩ := Local.inlined_iff.mp hn
    exact hlocals row hrow
  obtain ⟨symbol, hsymbol, -, hsymbolName⟩ := Analysis.symbolAt_use hrun hfault
    (hcommand ▸ List.mem_singleton_self command) hterm huse
    (fun other hother _ => List.mem_singleton.mp (hcommand ▸ hother)) hdistinct hname hinlined
  exact ⟨analysis, symbol, hrun, hfault, hsymbol, hsymbolName⟩

/-- Of the two fields of an object, the value of the first one is shown, and nothing is
shown for the value of the second one. -/
theorem Analysis.symbolAt_second_field :
    ∃ analysis, analyze 60 {} (preludeContext 60)
        "const o = x => y => ({p: x, q: y});".toList = .ok analysis ∧
      analysis.fault = none ∧
      analysis.typeAt 1 26 = "x :: a" ∧
      analysis.symbolAt 1 31 = none := by
  have hpasses : Except.passes (analyze 60 {} (preludeContext 60)
      "const o = x => y => ({p: x, q: y});".toList) (fun analysis =>
        decide (analysis.fault = none ∧
          analysis.typeAt 1 26 = "x :: a" ∧
          analysis.symbolAt 1 31 = none)) = true := by
    rw [preludeContext_eq, String.toList_ofList]
    decide +kernel
  obtain ⟨analysis, hrun, htest⟩ := Except.exists_of_passes hpasses
  exact ⟨analysis, hrun, of_decide_eq_true htest⟩

end RowScript
