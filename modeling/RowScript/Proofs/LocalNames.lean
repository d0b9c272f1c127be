import RowScript.Proofs.ContextImages
import RowScript.Proofs.InnerContexts

/-!
# Local names as seen from inside a term

A name that is new in the context as seen from inside a term is in the table of the parameters and
local declarations of the term as written, or the letter of a type parameter.
-/

namespace RowScript

open List Context

/-- A parameter or a local declaration. A declaration has its value here if inference may
inline it. -/
structure Local where
  name : String
  loc : Loc
  value : Option Term

namespace Term

mutual

/-- Whether a term is a syntactic value as soon as its names are replaced by values. -/
def isInert : Term → Bool
  | .reference .. | .boolean _ | .number _ | .string _ | .unit _ | .function .. | .emptyRecord _ =>
    true
  | .recordExtend _ value record _ => isInert value && isInert record
  | .recordRestrict _ record _ | .fieldAccess _ record _ => isInert record
  | .array elements _ => areInert elements
  | .application .. | .letIn .. | .conditional .. => false

/-- The same for all terms of a list. -/
def areInert : List Term → Bool
  | [] => true
  | term :: rest => isInert term && areInert rest

end

mutual

/-- The parameters and local declarations in a term. -/
def locals : Term → List Local
  | .reference .. | .boolean _ | .number _ | .string _ | .unit _ | .emptyRecord _ => []
  | .function param body _ _ =>
    (param.map fun param => ⟨param.name, param.loc, none⟩).toList ++ locals body
  | .letIn name value body nameLoc _ =>
    ⟨name, nameLoc, if value.isInert then some value else none⟩ :: (locals value ++ locals body)
  | .application a b _ | .recordExtend _ a b _ => locals a ++ locals b
  | .conditional a b c _ => locals a ++ locals b ++ locals c
  | .recordRestrict _ record _ | .fieldAccess _ record _ => locals record
  | .array elements _ => localsIn elements

def localsIn : List Term → List Local
  | [] => []
  | term :: rest => locals term ++ localsIn rest

end

mutual

/-- The names that have to be bound where a term is looked into: what it refers to, less
the names that are inlined, and what it declares. A value that is inlined is looked into
from elsewhere. -/
def needs (inlined : String → Bool) : Term → List String
  | .reference name _ => if inlined name then [] else [name]
  | .boolean _ | .number _ | .string _ | .unit _ | .emptyRecord _ => []
  | .function _ body _ _ => needs inlined body
  | .letIn name value body _ _ =>
    name :: ((if inlined name then [] else needs inlined value) ++ needs inlined body)
  | .application a b _ | .recordExtend _ a b _ => needs inlined a ++ needs inlined b
  | .conditional a b c _ => needs inlined a ++ needs inlined b ++ needs inlined c
  | .recordRestrict _ record _ | .fieldAccess _ record _ => needs inlined record
  | .array elements _ => needsIn inlined elements

def needsIn (inlined : String → Bool) : List Term → List String
  | [] => []
  | term :: rest => needs inlined term ++ needsIn inlined rest

end

end Term

namespace Local

/-- Whether a name is one of a declaration that may be inlined. -/
def inlined (table : List Local) (name : String) : Bool :=
  table.any fun row => row.name = name && row.value.isSome

/-- A declaration in an inlined term stands for one of the table: at the same place, with
a value that has at least the same names in it. -/
structure Stands (table : List Local) (row : Local) (name : String) (nameLoc : Loc)
    (value : Term) : Prop where
  mem : row ∈ table
  name : row.name = name
  loc : row.loc = nameLoc
  inert : value.isInert → row.value.isSome
  needs : ∀ {written}, row.value = some written → ∀ n ∈ written.needs (inlined table),
    n ∈ value.needs (inlined table)
  binders : ∀ {written}, row.value = some written → ∀ n ∈ written.binders, n ∈ value.binders

end Local

namespace Term

mutual

/-- Every parameter and local declaration of a term stands for one of the table. -/
def Follows (table : List Local) : Term → Prop
  | .reference .. | .boolean _ | .number _ | .string _ | .unit _ | .emptyRecord _ => True
  | .function param body _ _ =>
    (∀ p, param = some p → ⟨p.name, p.loc, none⟩ ∈ table) ∧ Follows table body
  | .letIn name value body nameLoc _ =>
    (∃ row, Local.Stands table row name nameLoc value) ∧ Follows table value ∧ Follows table body
  | .application a b _ | .recordExtend _ a b _ => Follows table a ∧ Follows table b
  | .conditional a b c _ => Follows table a ∧ Follows table b ∧ Follows table c
  | .recordRestrict _ record _ | .fieldAccess _ record _ => Follows table record
  | .array elements _ => AllFollow table elements

def AllFollow (table : List Local) : List Term → Prop
  | [] => True
  | term :: rest => Follows table term ∧ AllFollow table rest

end

variable {table : List Local} {inlined : String → Bool} {x y : String} {replacement : Term}
  {terms : List Term}

theorem allFollow_iff : AllFollow table terms ↔ ∀ term ∈ terms, term.Follows table := by
  induction terms with
  | nil => simp [AllFollow]
  | cons term rest ih => simp [AllFollow, ih]

theorem mem_needsIn : y ∈ needsIn inlined terms ↔ ∃ term ∈ terms, y ∈ term.needs inlined := by
  induction terms with
  | nil => simp [needsIn]
  | cons term rest ih => simp [needsIn, ih]

theorem mem_localsIn {row : Local} : row ∈ localsIn terms ↔ ∃ term ∈ terms, row ∈ term.locals := by
  induction terms with
  | nil => simp [localsIn]
  | cons term rest ih => simp [localsIn, ih]

mutual

theorem isInert_of_isValue : ∀ term : Term, term.isValue → term.isInert
  | .recordExtend _ value record _, hvalue => by
    simp only [isValue, isInert, Bool.and_eq_true] at hvalue ⊢
    exact ⟨isInert_of_isValue value hvalue.1, isInert_of_isValue record hvalue.2⟩
  | .recordRestrict _ record _, hvalue | .fieldAccess _ record _, hvalue =>
    isInert_of_isValue record hvalue
  | .array elements _, hvalue => areInert_of_areValues elements hvalue
  | .reference .., _ | .boolean _, _ | .number _, _ | .string _, _ | .unit _, _
  | .function .., _ | .emptyRecord _, _ => rfl

theorem areInert_of_areValues :
    ∀ terms : List Term, areValues terms → areInert terms
  | [], _ => rfl
  | term :: rest, hvalues => by
    simp only [areValues, areInert, Bool.and_eq_true] at hvalues ⊢
    exact ⟨isInert_of_isValue term hvalues.1, areInert_of_areValues rest hvalues.2⟩

end

theorem areInert_iff : areInert terms ↔ ∀ term ∈ terms, term.isInert := by
  induction terms with
  | nil => simp [areInert]
  | cons term rest ih => simp [areInert, ih]

namespace Replaced

theorem isInert {term result : Term} (hreplaced : Replaced x replacement term result)
    (hinert : result.isInert) : term.isInert := by
  induction hreplaced with
  | same => exact hinert
  | copy | function => rfl
  | recordExtend _ _ _ _ iha ihb =>
    simp only [Term.isInert, Bool.and_eq_true] at hinert ⊢
    exact ⟨iha hinert.1, ihb hinert.2⟩
  | recordRestrict _ _ _ ih | fieldAccess _ _ _ ih => exact ih hinert
  | array _ _ _ ih =>
    simp only [Term.isInert, areInert_iff, forall_mem_map] at hinert ⊢
    exact fun element helement => ih element helement (hinert element helement)
  | application | letIn | conditional => cases hinert

variable {result : Term}

theorem mem_needs {term : Term} (hreplaced : Replaced x replacement term result)
    (hx : inlined x) (hy : y ∈ term.needs inlined) : y ∈ result.needs inlined := by
  induction hreplaced with
  | same => exact hy
  | copy => simp [needs, hx] at hy
  | function _ _ _ _ ih | recordRestrict _ _ _ ih | fieldAccess _ _ _ ih => exact ih hy
  | letIn _ _ _ _ _ ihvalue ihbody =>
    rw [needs, mem_cons, mem_append] at hy ⊢
    refine hy.imp_right (Or.imp (fun hvalue => ?_) ihbody)
    split at hvalue
    · cases hvalue
    · rename_i hname
      rw [if_neg hname]
      exact ihvalue hvalue
  | application _ _ _ iha ihb | recordExtend _ _ _ _ iha ihb =>
    simp only [needs, mem_append] at hy ⊢
    exact hy.imp iha ihb
  | conditional _ _ _ _ iha ihb ihc =>
    simp only [needs, mem_append] at hy ⊢
    exact hy.imp (Or.imp iha ihb) ihc
  | array _ _ _ ih =>
    obtain ⟨element, helement, hy⟩ := mem_needsIn.mp hy
    exact mem_needsIn.mpr ⟨_, mem_map_of_mem helement, ih element helement hy⟩

/-- A declaration stands for the same one after a name in its value is inlined. -/
theorem stands {row : Local} {name : String} {nameLoc : Loc} {value : Term}
    (hreplaced : Replaced x replacement value result) (hx : Local.inlined table x)
    (hstands : Local.Stands table row name nameLoc value) :
    Local.Stands table row name nameLoc result where
  mem := hstands.mem
  name := hstands.name
  loc := hstands.loc
  inert hinert := hstands.inert (hreplaced.isInert hinert)
  needs hwritten n hn := hreplaced.mem_needs hx (hstands.needs hwritten n hn)
  binders hwritten n hn := hreplaced.mem_binders (hstands.binders hwritten n hn)

end Replaced

theorem follows_replace (hx : Local.inlined table x) (hreplacement : replacement.Follows table)
    (term : Term) (hterm : term.Follows table) : (term.replace x replacement).Follows table := by
  have hreplaced := replaced_replace x replacement term
  generalize term.replace x replacement = result at hreplaced ⊢
  induction hreplaced with
  | same => exact hterm
  | copy => exact hreplacement
  | function _ _ _ _ ih =>
    exact ⟨hterm.1, ih hterm.2⟩
  | letIn _ _ _ hvalue _ ihvalue ihbody =>
    obtain ⟨⟨row, hstands⟩, hterm⟩ := hterm
    exact ⟨⟨row, hvalue.stands hx hstands⟩, ihvalue hterm.1, ihbody hterm.2⟩
  | application _ _ _ iha ihb | recordExtend _ _ _ _ iha ihb =>
    exact ⟨iha hterm.1, ihb hterm.2⟩
  | conditional _ _ _ _ iha ihb ihc =>
    exact ⟨iha hterm.1, ihb hterm.2.1, ihc hterm.2.2⟩
  | recordRestrict _ _ _ ih | fieldAccess _ _ _ ih => exact ih hterm
  | array _ _ _ ih =>
    rw [Follows, allFollow_iff] at hterm ⊢
    exact forall_mem_map.mpr fun element helement =>
      ih element helement (hterm element helement)

/-- A term follows the table of its own parameters and local declarations. -/
theorem follows_of_locals (term : Term) (hterm : ∀ row ∈ term.locals, row ∈ table) :
    term.Follows table := by
  induction term using induct with
  | function param body _ _ ih =>
    simp only [locals, mem_append, or_imp, forall_and] at hterm
    refine ⟨?_, ih hterm.2⟩
    rintro p rfl
    exact hterm.1 _ (by simp)
  | letIn name value body nameLoc _ ihvalue ihbody =>
    simp only [locals, forall_mem_cons, mem_append, or_imp, forall_and] at hterm
    have hvalue {written : Term} (hwritten : (if value.isInert then some value else none) =
        some written) : written = value := by
      split at hwritten
      · exact (Option.some.inj hwritten).symm
      · cases hwritten
    refine ⟨⟨_, hterm.1, rfl, rfl, fun hinert => by simp [hinert], ?_, ?_⟩, ihvalue hterm.2.1,
      ihbody hterm.2.2⟩
    all_goals
      intro written hwritten n hn
      rwa [hvalue hwritten] at hn
  | application _ _ _ iha ihb | recordExtend _ _ _ _ iha ihb =>
    simp only [locals, mem_append, or_imp, forall_and] at hterm
    exact ⟨iha hterm.1, ihb hterm.2⟩
  | conditional _ _ _ _ iha ihb ihc =>
    simp only [locals, mem_append, or_imp, forall_and] at hterm
    exact ⟨iha hterm.1.1, ihb hterm.1.2, ihc hterm.2⟩
  | recordRestrict _ _ _ ih | fieldAccess _ _ _ ih => exact ih hterm
  | array elements _ ih =>
    refine allFollow_iff.mpr fun element helement => ih element helement fun row hrow => ?_
    exact hterm row (mem_localsIn.mpr ⟨element, helement, hrow⟩)
  | reference | boolean | number | string | unit | emptyRecord => trivial

end Term

namespace Binding

/-- A binding without its types and without what is inside it. -/
def outline : Binding → Binding
  | .typed _ nameLoc isGlobal => .typed .unit nameLoc isGlobal
  | .defined term type nameLoc _ isGlobal =>
    .defined term (type.map fun _ => .unit) nameLoc none isGlobal
  | .typeAlias _ nameLoc isGlobal => .typeAlias .unit nameLoc isGlobal
  | .typeParameter => .typeParameter

/-- Whether a binding is that of a value with a type. -/
def isShown : Binding → Bool
  | .typed .. | .defined _ (some _) .. => true
  | _ => false

theorem isShown_outline (binding : Binding) : binding.outline.isShown = binding.isShown := by
  cases binding with
  | defined term type nameLoc inner isGlobal => cases type <;> rfl
  | _ => rfl

theorem eq_typed_of_outline {binding : Binding} {type : Ty} {nameLoc : Loc} {isGlobal : Bool}
    (houtline : binding.outline = (Binding.typed type nameLoc isGlobal).outline) :
    ∃ found, binding = .typed found nameLoc isGlobal := by
  cases binding <;> simp_all [outline]

end Binding

namespace Context

/-- A name that stands for nothing but a value with a type. -/
def Usable (scope : Context) (name : String) : Prop :=
  ∀ {binding}, scope.find? name = some binding → binding.isShown = true

mutual

/-- A context as inference builds it on top of a scope, described by a table. Names of
the scope mean what they mean there, and other names are described on their own. The
letter of a type parameter may hide either. -/
inductive Described (table : List Local) : List (Entry Binding) → List (Entry Binding) → Prop where
  | mk {scope ctx : List (Entry Binding)}
      (hfind : ∀ {name binding}, find? scope name = some binding →
        ∃ found, find? ctx name = some found ∧
          (found = .typeParameter ∨ found.outline = binding.outline))
      (hold : ∀ entry ∈ ctx, binds scope entry.name = true →
        entry.binding = .typeParameter ∨
          ∃ old ∈ scope, old.name = entry.name ∧ entry.binding.outline = old.binding.outline)
      (hnew : ∀ entry ∈ ctx, find? scope entry.name = none →
        DescribedBinding table scope ctx entry.name entry.binding) :
      Described table scope ctx

/-- What a name stands for that is new in a context. A declaration of a value that is not
inlined in the end has the names of its value around it. -/
inductive DescribedBinding (table : List Local) :
    List (Entry Binding) → List (Entry Binding) → String → Binding → Prop where
  | typeParameter {scope ctx : List (Entry Binding)} {name : String} :
      DescribedBinding table scope ctx name .typeParameter
  | typed {scope ctx : List (Entry Binding)} {row : Local} (type : Ty) (hrow : row ∈ table)
      (hneeds : ∀ {written}, row.value = some written →
        ∀ n ∈ written.needs (Local.inlined table),
          binds ctx n = true ∧ Context.Usable scope n) :
      DescribedBinding table scope ctx row.name (.typed type row.loc false)
  | defined {scope ctx inside inner : List (Entry Binding)} {row : Local} {written : Term}
      (term : Term) (type : Ty) (hrow : row ∈ table) (hvalue : row.value = some written)
      (hinner : Described table inside inner)
      (hneeds : ∀ n ∈ written.needs (Local.inlined table),
        binds inner n = true ∧ Context.Usable inside n)
      (hbinders : ∀ n ∈ written.binders, find? inside n = none) :
      DescribedBinding table scope ctx row.name
        (.defined term (some type) row.loc (some inner) false)

end

variable {table : List Local} {scope scope' ctx ctx' : Context} {name : String}
  {binding image : Binding} {S : Context → Prop}

theorem Described.refl (ctx : Context) : Described table ctx ctx := by
  refine ⟨fun hname => ⟨_, hname, .inr rfl⟩, fun entry hentry _ => ?_, fun entry hentry hnone => ?_⟩
  · exact .inr ⟨entry, hentry, rfl, rfl⟩
  · have hbinds := binds_of_mem hentry
    simp [binds, hnone] at hbinds

theorem Described.binds (hdescribed : Described table scope ctx) (hname : scope.binds name) :
    ctx.binds name := by
  cases hdescribed with
  | mk hfind =>
    obtain ⟨binding, hbinding⟩ := Option.isSome_iff_exists.mp hname
    obtain ⟨found, hfound, -⟩ := hfind hbinding
    rw [Context.binds, hfound]
    rfl

theorem DescribedBinding.mono (hbinding : DescribedBinding table scope ctx name binding)
    (hbinds : ∀ {n}, ctx.binds n → ctx'.binds n)
    (husable : ∀ {n}, scope.Usable n → scope'.Usable n) :
    DescribedBinding table scope' ctx' name binding := by
  cases hbinding with
  | typeParameter => exact .typeParameter
  | typed type hrow hneeds =>
    exact .typed type hrow fun hwritten n hn =>
      (hneeds hwritten n hn).imp (fun h => hbinds h) fun h => husable h
  | defined term type hrow hvalue hinner hneeds hbinders =>
    exact .defined term type hrow hvalue hinner hneeds hbinders

/-- One more binding on top: a type parameter, or one that is described. -/
theorem Described.cons (hdescribed : Described table scope ctx) (stamp : Nat)
    (hbinding : DescribedBinding table scope ctx name binding)
    (hname : scope.binds name → binding = .typeParameter) :
    Described table scope (⟨stamp, name, binding⟩ :: ctx) := by
  have hbinds {n : String} (hn : ctx.binds n = true) :
      Context.binds (⟨stamp, name, binding⟩ :: ctx) n = true := by
    rw [binds_cons, hn, Bool.or_true]
  cases hdescribed with
  | mk hfind hold hnew =>
    refine ⟨fun {n old} hn => ?_, ?_, ?_⟩
    · rw [find?_cons]
      split
      · rename_i heq
        subst heq
        exact ⟨_, rfl, .inl (hname (by rw [Context.binds, hn]; rfl))⟩
      · exact hfind hn
    · refine forall_mem_cons.mpr ⟨fun hn => .inl (hname hn), hold⟩
    · refine forall_mem_cons.mpr ⟨fun _ => hbinding.mono hbinds fun h => h, ?_⟩
      exact fun entry hentry hnone => (hnew entry hentry hnone).mono hbinds fun h => h

theorem Described.merge {next : Nat} (hheap : Heap none next S) (hctx : S ctx) (hctx' : S ctx')
    (hdescribed : Described table scope ctx) (hdescribed' : Described table scope ctx') :
    Described table scope (ctx.merge ctx' next).1 := by
  have habsorbs := hheap.absorbs_merge hctx hctx'
  cases hdescribed with
  | mk hfind hold hnew =>
    cases hdescribed' with
    | mk hfind' hold' hnew' =>
      refine ⟨fun hn => ?_, fun entry hentry hn => ?_, fun entry hentry hnone => ?_⟩
      · obtain ⟨found, hfound, hsame⟩ := hfind hn
        exact ⟨found, habsorbs.find? hfound, hsame⟩
      · obtain hentry | ⟨item, hitem, hitemName, hitemBinding⟩ := habsorbs.mem entry hentry
        · exact hold entry hentry hn
        · rw [← hitemName, ← hitemBinding]
          exact hold' item hitem (hitemName ▸ hn)
      · obtain hentry | ⟨item, hitem, hitemName, hitemBinding⟩ := habsorbs.mem entry hentry
        · exact (hnew entry hentry hnone).mono habsorbs.binds_of_binds fun h => h
        · rw [← hitemName, ← hitemBinding]
          exact (hnew' item hitem (hitemName ▸ hnone)).mono habsorbs.binds_of_item fun h => h

variable {f : Ty → Option Ty}

theorem MappedBinding.outline (hmapped : MappedBinding f binding image) :
    image.outline = binding.outline := by
  cases hmapped with
  | global => rfl
  | leaf => cases binding <;> simp [rebuilt, Binding.outline, Function.comp_def]
  | defined => simp [Binding.outline, Function.comp_def]

theorem MappedBinding.eq_typeParameter (hmapped : MappedBinding f .typeParameter image) :
    image = .typeParameter := by
  cases hmapped <;> rfl

theorem Mapped.exists_mem {image : Context} (hmapped : Mapped f ctx image) :
    ∀ entry ∈ image, ∃ old ∈ ctx, old.name = entry.name ∧
      MappedBinding f old.binding entry.binding := by
  induction ctx generalizing image with
  | nil =>
    cases hmapped
    simp
  | cons first older ih =>
    cases hmapped with
    | cons hname hbinding holder =>
      refine forall_mem_cons.mpr ⟨⟨first, mem_cons_self, hname.symm, hbinding⟩, ?_⟩
      intro entry hentry
      obtain ⟨old, hold, heq⟩ := ih holder entry hentry
      exact ⟨old, mem_cons_of_mem _ hold, heq⟩

mutual

theorem Described.mapped {scope ctx image : List (Entry Binding)} :
    Described table scope ctx → Mapped f ctx image → Described table scope image
  | .mk hfind hold hnew, hmapped => by
    refine ⟨fun {name binding} hn => ?_, fun entry hentry hn => ?_, fun entry hentry hnone => ?_⟩
    · obtain ⟨found, hfound, hsame⟩ := hfind hn
      have hrel := hmapped.find? name
      rw [hfound] at hrel
      generalize find? image name = foundImage at hrel ⊢
      cases hrel with
      | some hbinding =>
        exact ⟨_, rfl, hsame.imp (fun heq => (heq ▸ hbinding).eq_typeParameter)
          fun heq => hbinding.outline.trans heq⟩
    · obtain ⟨old, hmem, hname, hbinding⟩ := hmapped.exists_mem entry hentry
      rw [← hname] at hn ⊢
      exact (hold old hmem hn).imp (fun heq => (heq ▸ hbinding).eq_typeParameter)
        fun ⟨base, hbase, hbaseName, heq⟩ =>
          ⟨base, hbase, hbaseName, hbinding.outline.trans heq⟩
    · obtain ⟨old, hmem, hname, hbinding⟩ := hmapped.exists_mem entry hentry
      rw [← hname] at hnone ⊢
      exact DescribedBinding.mapped (hnew old hmem hnone) hbinding
        (fun hn => hmapped.binds.trans hn)

theorem DescribedBinding.mapped {scope ctx ctx' : List (Entry Binding)} {name : String}
    {binding image : Binding} :
    DescribedBinding table scope ctx name binding → MappedBinding f binding image →
    (∀ {n}, Context.binds ctx n → Context.binds ctx' n) →
    DescribedBinding table scope ctx' name image
  | .typeParameter, hmapped, _ => by
    rw [hmapped.eq_typeParameter]
    exact .typeParameter
  | .typed type hrow hneeds, hmapped, hbinds => by
    cases hmapped with
    | global hglobal => cases hglobal
    | leaf =>
      exact .typed _ hrow fun hwritten n hn => (hneeds hwritten n hn).imp_left fun h => hbinds h
  | .defined term type hrow hvalue hinner hneeds hbinders, hmapped, _ => by
    cases hmapped with
    | global hglobal => cases hglobal
    | leaf _ hnone => cases hnone
    | defined _ _ _ hmapped =>
      exact .defined term _ hrow hvalue (Described.mapped hinner hmapped)
        (fun n hn => (hneeds n hn).imp_left fun h => hmapped.binds.trans h) hbinders

end

section Free

variable {stamp : Nat} (hfree : scope.find? name = none) {n : String}

include hfree

theorem find?_cons_of_free {old : Binding} (hn : scope.find? n = some old) :
    find? (⟨stamp, name, binding⟩ :: scope) n = some old := by
  rw [find?_cons, if_neg, hn]
  rintro rfl
  rw [hfree] at hn
  cases hn

theorem Usable.of_cons (husable : Usable (⟨stamp, name, binding⟩ :: scope) n) : scope.Usable n :=
  fun hn => husable (find?_cons_of_free hfree hn)

end Free

section Narrow

variable {stamp : Nat} {type : Ty} {entry : Entry Binding} {row : Local}
  (hfree : scope.find? row.name = none)
  (hdescribed : Described table (⟨stamp, row.name, .typed type row.loc false⟩ :: scope) ctx)

include hfree hdescribed

theorem Described.old_of_cons (hentry : entry ∈ ctx) (hname : scope.binds entry.name) :
    entry.binding = .typeParameter ∨
      ∃ old ∈ scope, old.name = entry.name ∧ entry.binding.outline = old.binding.outline := by
  cases hdescribed with
  | mk _ hold _ =>
    refine (hold entry hentry (by rw [binds_cons, hname, Bool.or_true])).imp_right ?_
    rintro ⟨old, hmem, holdName, heq⟩
    obtain rfl | hmem := mem_cons.mp hmem
    · rw [← holdName] at hname
      simp [Context.binds, hfree] at hname
    · exact ⟨old, hmem, holdName, heq⟩

/-- The value that was in scope is a name of the table from then on. -/
theorem Described.new_of_cons (hrow : row ∈ table) (hbinds : ∀ {n}, ctx.binds n → ctx'.binds n)
    (hneeds : ∀ {written}, row.value = some written →
      ∀ n ∈ written.needs (Local.inlined table), ctx'.binds n ∧ scope.Usable n)
    (hentry : entry ∈ ctx) (hnone : scope.find? entry.name = none) :
    DescribedBinding table scope ctx' entry.name entry.binding := by
  cases hdescribed with
  | mk _ hold hnew =>
    by_cases hname : entry.name = row.name
    · obtain hparameter | ⟨old, hmem, holdName, heq⟩ :=
        hold entry hentry (by rw [binds_cons, hname, decide_eq_true rfl, Bool.true_or])
      · rw [hparameter]
        exact .typeParameter
      · obtain rfl | hmem := mem_cons.mp hmem
        · obtain ⟨found, hfound⟩ := Binding.eq_typed_of_outline heq
          rw [hfound, hname]
          exact .typed found hrow hneeds
        · have hbound := binds_of_mem hmem
          rw [holdName, hname, Context.binds, hfree] at hbound
          cases hbound
    · refine (hnew entry hentry ?_).mono hbinds fun h => h.of_cons hfree
      rw [find?_cons, if_neg hname, hnone]

variable (row) in
/-- A context built on a scope with one more value, as one built on the scope without it. -/
theorem Described.narrow (hrow : row ∈ table) (hvalue : row.value = none) :
    Described table scope ctx := by
  have hneeds {written : Term} (hwritten : row.value = some written) (n : String)
      (_ : n ∈ written.needs (Local.inlined table)) : ctx.binds n = true ∧ scope.Usable n := by
    rw [hvalue] at hwritten
    cases hwritten
  refine ⟨fun hn => ?_, fun entry hentry hn => hdescribed.old_of_cons hfree hentry hn,
    fun entry hentry hnone => hdescribed.new_of_cons hfree hrow (fun h => h) hneeds hentry hnone⟩
  cases hdescribed with
  | mk hfind => exact hfind (find?_cons_of_free hfree hn)

/-- The same when the value needs names of another context, which is merged in. -/
theorem Described.narrow_merge {next : Nat} (hheap : Heap none next S) (hctx : S ctx)
    (hctx' : S ctx') (hdescribed' : Described table scope ctx') (hrow : row ∈ table)
    (hneeds : ∀ {written}, row.value = some written →
      ∀ n ∈ written.needs (Local.inlined table), ctx'.binds n ∧ scope.Usable n) :
    Described table scope (ctx.merge ctx' next).1 := by
  have habsorbs := hheap.absorbs_merge hctx hctx'
  refine ⟨fun hn => ?_, fun entry hentry hn => ?_, fun entry hentry hnone => ?_⟩
  · cases hdescribed with
    | mk hfind =>
      obtain ⟨found, hfound, hsame⟩ := hfind (find?_cons_of_free hfree hn)
      exact ⟨found, habsorbs.find? hfound, hsame⟩
  · obtain hentry | ⟨item, hitem, hitemName, hitemBinding⟩ := habsorbs.mem entry hentry
    · exact hdescribed.old_of_cons hfree hentry hn
    · rw [← hitemName, ← hitemBinding]
      cases hdescribed' with
      | mk _ hold => exact hold item hitem (hitemName ▸ hn)
  · obtain hentry | ⟨item, hitem, hitemName, hitemBinding⟩ := habsorbs.mem entry hentry
    · exact hdescribed.new_of_cons hfree hrow habsorbs.binds_of_binds
        (fun hwritten n hn => (hneeds hwritten n hn).imp_left habsorbs.binds_of_item) hentry hnone
    · rw [← hitemName, ← hitemBinding]
      cases hdescribed' with
      | mk _ _ hnew =>
        exact (hnew item hitem (hitemName ▸ hnone)).mono habsorbs.binds_of_item fun h => h

end Narrow

end Context

end RowScript
