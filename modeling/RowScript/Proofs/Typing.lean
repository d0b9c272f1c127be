import RowScript.Proofs.Equality

/-!
# Typing

The types that terms have, said without placeholders, fuel or faults. A local declaration of a value
is typed by putting the value in for its name, where no name of the value is captured.
-/

namespace RowScript

open Term List

namespace Term

variable {motive : Term → Prop}

/-- Induction on the form of a term. Of an array it is known for all its elements. -/
@[elab_as_elim]
theorem induct (reference : ∀ name loc, motive (.reference name loc))
    (function : ∀ param body ascribed loc, motive body → motive (.function param body ascribed loc))
    (application : ∀ func arg loc, motive func → motive arg → motive (.application func arg loc))
    (letIn : ∀ name value body nameLoc loc, motive value → motive body →
      motive (.letIn name value body nameLoc loc))
    (conditional : ∀ condition consequence alternative loc, motive condition → motive consequence →
      motive alternative → motive (.conditional condition consequence alternative loc))
    (boolean : ∀ loc, motive (.boolean loc)) (number : ∀ loc, motive (.number loc))
    (string : ∀ loc, motive (.string loc)) (unit : ∀ loc, motive (.unit loc))
    (emptyRecord : ∀ loc, motive (.emptyRecord loc))
    (recordExtend : ∀ key value record loc, motive value → motive record →
      motive (.recordExtend key value record loc))
    (recordRestrict : ∀ key record loc, motive record → motive (.recordRestrict key record loc))
    (fieldAccess : ∀ key record loc, motive record → motive (.fieldAccess key record loc))
    (array : ∀ elements loc, (∀ element ∈ elements, motive element) → motive (.array elements loc))
    (term : Term) : motive term :=
  @Term.rec motive (fun terms => ∀ term ∈ terms, motive term) reference function
    application letIn conditional boolean number string unit emptyRecord recordExtend
    recordRestrict fieldAccess array (fun _ hterm => absurd hterm not_mem_nil)
    (fun _ _ hterm hrest => forall_mem_cons.mpr ⟨hterm, hrest⟩) term

/-- The terms right inside a term. -/
def children : Term → List Term
  | .reference .. | .boolean _ | .number _ | .string _ | .unit _ | .emptyRecord _ => []
  | .function _ body _ _ => [body]
  | .application a b _ | .letIn _ a b _ _ | .recordExtend _ a b _ => [a, b]
  | .conditional a b c _ => [a, b, c]
  | .recordRestrict _ record _ | .fieldAccess _ record _ => [record]
  | .array elements _ => elements

@[elab_as_elim]
theorem inductChildren (step : ∀ term, (∀ child ∈ term.children, motive child) → motive term)
    (term : Term) : motive term := by
  induction term using induct with
  | _ => exact step _ (by simp_all [children])

/-- A term of the same form with nothing in it. -/
def bare : Term → Term
  | .function param _ ascribed loc => .function param (.unit loc) ascribed loc
  | .application _ _ loc => .application (.unit loc) (.unit loc) loc
  | .letIn name _ _ nameLoc loc => .letIn name (.unit loc) (.unit loc) nameLoc loc
  | .conditional _ _ _ loc => .conditional (.unit loc) (.unit loc) (.unit loc) loc
  | .recordExtend key _ _ loc => .recordExtend key (.unit loc) (.unit loc) loc
  | .recordRestrict key _ loc => .recordRestrict key (.unit loc) loc
  | .fieldAccess key _ loc => .fieldAccess key (.unit loc) loc
  | .array _ loc => .array [] loc
  | term => term

/-- A property that a term has if its form has it and the terms right inside do. -/
def Hereditary (P : Term → Prop) : Prop :=
  ∀ term, P term ↔ P term.bare ∧ ∀ child ∈ term.children, P child

theorem Hereditary.imp {P Q : Term → Prop} (hP : Hereditary P) (hQ : Hereditary Q)
    (himp : ∀ term : Term, P term.bare → Q term.bare) (term : Term) (hterm : P term) : Q term := by
  induction term using inductChildren with
  | step term ih =>
    obtain ⟨hbare, hchildren⟩ := (hP term).mp hterm
    exact (hQ term).mpr
      ⟨himp term hbare, fun child hchild => ih child hchild (hchildren child hchild)⟩

mutual

/-- Whether every function in a term passes a check on its parameter and its written
type. -/
def allFunctions (p : Option Param → Option Ty → Bool) : Term → Bool
  | .reference .. | .boolean _ | .number _ | .string _ | .unit _ | .emptyRecord _ => true
  | .function param body ascribed _ => p param ascribed && allFunctions p body
  | .application a b _ | .letIn _ a b _ _ | .recordExtend _ a b _ =>
    allFunctions p a && allFunctions p b
  | .conditional a b c _ => allFunctions p a && allFunctions p b && allFunctions p c
  | .recordRestrict _ record _ | .fieldAccess _ record _ => allFunctions p record
  | .array elements _ => allFunctionsIn p elements

def allFunctionsIn (p : Option Param → Option Ty → Bool) : List Term → Bool
  | [] => true
  | term :: rest => allFunctions p term && allFunctionsIn p rest

end

mutual

/-- The names that a term refers to and does not bind. -/
def freeNames : Term → List String
  | .reference name _ => [name]
  | .boolean _ | .number _ | .string _ | .unit _ | .emptyRecord _ => []
  | .function param body _ _ => (freeNames body).filter fun name => !param.any (·.name = name)
  | .letIn name value body _ _ => freeNames value ++ (freeNames body).filter (· ≠ name)
  | .application a b _ | .recordExtend _ a b _ => freeNames a ++ freeNames b
  | .conditional a b c _ => freeNames a ++ freeNames b ++ freeNames c
  | .recordRestrict _ record _ | .fieldAccess _ record _ => freeNames record
  | .array elements _ => freeNamesIn elements

def freeNamesIn : List Term → List String
  | [] => []
  | term :: rest => freeNames term ++ freeNamesIn rest

end

mutual

/-- The names that a term binds somewhere inside. -/
def binders : Term → List String
  | .reference .. | .boolean _ | .number _ | .string _ | .unit _ | .emptyRecord _ => []
  | .function param body _ _ => (param.map (·.name)).toList ++ binders body
  | .letIn name value body _ _ => name :: (binders value ++ binders body)
  | .application a b _ | .recordExtend _ a b _ => binders a ++ binders b
  | .conditional a b c _ => binders a ++ binders b ++ binders c
  | .recordRestrict _ record _ | .fieldAccess _ record _ => binders record
  | .array elements _ => bindersIn elements

def bindersIn : List Term → List String
  | [] => []
  | term :: rest => binders term ++ bindersIn rest

end

variable {p : Option Param → Option Ty → Bool} {x y : String} {replacement : Term}
  {terms : List Term}

theorem allFunctionsIn_iff : allFunctionsIn p terms ↔ ∀ term ∈ terms, term.allFunctions p := by
  induction terms with
  | nil => simp [allFunctionsIn]
  | cons term rest ih => simp [allFunctionsIn, ih]

theorem mem_freeNamesIn : y ∈ freeNamesIn terms ↔ ∃ term ∈ terms, y ∈ term.freeNames := by
  induction terms with
  | nil => simp [freeNamesIn]
  | cons term rest ih => simp [freeNamesIn, ih]

theorem mem_bindersIn : y ∈ bindersIn terms ↔ ∃ term ∈ terms, y ∈ term.binders := by
  induction terms with
  | nil => simp [bindersIn]
  | cons term rest ih => simp [bindersIn, ih]

theorem hereditary_allFunctions : Hereditary (·.allFunctions p = true) := fun term => by
  cases term <;> simp [allFunctions, bare, children, allFunctionsIn_iff, and_assoc]

theorem hereditary_binders : Hereditary (y ∉ ·.binders) := fun term => by
  cases term <;> simp [binders, bare, children, mem_bindersIn]

theorem allFunctions_imp {q : Option Param → Option Ty → Bool}
    (himp : ∀ param ascribed, p param ascribed → q param ascribed) (term : Term)
    (hterm : term.allFunctions p) : term.allFunctions q := by
  refine hereditary_allFunctions.imp hereditary_allFunctions (fun term hbare => ?_) term hterm
  cases term <;> simp_all [allFunctions, allFunctionsIn, bare]

theorem replaceAll_eq_map (terms : List Term) :
    replaceAll terms x replacement = terms.map (·.replace x replacement) := by
  induction terms with
  | nil => rfl
  | cons term rest ih => rw [replaceAll, ih, map_cons]

section

variable (x replacement)

/-- A term in which some references to a name were replaced. -/
inductive Replaced : Term → Term → Prop where
  | same (term : Term) : Replaced term term
  | copy (loc : Loc) : Replaced (.reference x loc) replacement
  | function {body body' : Term} (param : Option Param) (ascribed : Option Ty) (loc : Loc)
      (hbody : Replaced body body') :
      Replaced (.function param body ascribed loc) (.function param body' ascribed loc)
  | application {a a' b b' : Term} (loc : Loc) (ha : Replaced a a') (hb : Replaced b b') :
      Replaced (.application a b loc) (.application a' b' loc)
  | letIn {a a' b b' : Term} (name : String) (nameLoc loc : Loc) (ha : Replaced a a')
      (hb : Replaced b b') : Replaced (.letIn name a b nameLoc loc) (.letIn name a' b' nameLoc loc)
  | conditional {a a' b b' c c' : Term} (loc : Loc) (ha : Replaced a a') (hb : Replaced b b')
      (hc : Replaced c c') : Replaced (.conditional a b c loc) (.conditional a' b' c' loc)
  | recordExtend {a a' b b' : Term} (key : String) (loc : Loc) (ha : Replaced a a')
      (hb : Replaced b b') : Replaced (.recordExtend key a b loc) (.recordExtend key a' b' loc)
  | recordRestrict {a a' : Term} (key : String) (loc : Loc) (ha : Replaced a a') :
      Replaced (.recordRestrict key a loc) (.recordRestrict key a' loc)
  | fieldAccess {a a' : Term} (key : String) (loc : Loc) (ha : Replaced a a') :
      Replaced (.fieldAccess key a loc) (.fieldAccess key a' loc)
  | array {elements : List Term} (f : Term → Term) (loc : Loc)
      (helements : ∀ element ∈ elements, Replaced element (f element)) :
      Replaced (.array elements loc) (.array (elements.map f) loc)

end

theorem replaced_replace (x : String) (replacement term : Term) :
    Replaced x replacement term (term.replace x replacement) := by
  induction term using induct with
  | reference name loc =>
    rw [replace]
    split
    · rename_i hname
      exact hname ▸ .copy loc
    · exact .same _
  | function param body ascribed loc ih =>
    rw [replace]
    split
    · exact .same _
    · exact .function param ascribed loc ih
  | letIn name value body nameLoc loc ihvalue ihbody =>
    rw [replace]
    split
    · exact .letIn name nameLoc loc ihvalue (.same _)
    · exact .letIn name nameLoc loc ihvalue ihbody
  | application _ _ loc iha ihb => exact .application loc iha ihb
  | conditional _ _ _ loc iha ihb ihc => exact .conditional loc iha ihb ihc
  | recordExtend key _ _ loc iha ihb => exact .recordExtend key loc iha ihb
  | recordRestrict key _ loc ih => exact .recordRestrict key loc ih
  | fieldAccess key _ loc ih => exact .fieldAccess key loc ih
  | array elements loc ih =>
    rw [replace, replaceAll_eq_map]
    exact .array _ loc ih
  | boolean | number | string | unit | emptyRecord => exact .same _

section Hereditary

variable {P : Term → Prop} {term result : Term} (hP : Hereditary P)
  (hreplaced : Replaced x replacement term result)

include hP hreplaced

/-- What holds of a term and of a replacement holds after it. -/
theorem Hereditary.replaced (hreplacement : P replacement) (hterm : P term) : P result := by
  induction hreplaced with
  | same => exact hterm
  | copy => exact hreplacement
  | _ =>
    rw [hP] at hterm ⊢
    simp_all [children, bare]

/-- What holds after a replacement holds before it, if it holds of the name. -/
theorem Hereditary.of_replaced (hname : ∀ loc, P (.reference x loc)) (hresult : P result) :
    P term := by
  induction hreplaced with
  | same => exact hresult
  | copy => exact hname _
  | _ =>
    rw [hP] at hresult ⊢
    simp_all [children, bare]

end Hereditary

theorem allFunctions_replace (hreplacement : replacement.allFunctions p) (term : Term)
    (hterm : term.allFunctions p) : (term.replace x replacement).allFunctions p :=
  hereditary_allFunctions.replaced (replaced_replace x replacement term) hreplacement hterm

theorem mem_freeNames_replace (hne : y ≠ x) (term : Term) (hy : y ∈ term.freeNames) :
    y ∈ (term.replace x replacement).freeNames := by
  have hreplaced := replaced_replace x replacement term
  generalize term.replace x replacement = result at hreplaced ⊢
  induction hreplaced with
  | same => exact hy
  | copy => exact absurd (mem_singleton.mp hy) hne
  | function _ _ _ _ ih =>
    simp only [freeNames, mem_filter] at hy ⊢
    exact hy.imp_left ih
  | letIn _ _ _ _ _ ihvalue ihbody =>
    simp only [freeNames, mem_append, mem_filter] at hy ⊢
    exact hy.imp ihvalue (And.imp_left ihbody)
  | application _ _ _ iha ihb | recordExtend _ _ _ _ iha ihb =>
    simp only [freeNames, mem_append] at hy ⊢
    exact hy.imp iha ihb
  | conditional _ _ _ _ iha ihb ihc =>
    simp only [freeNames, mem_append] at hy ⊢
    exact hy.imp (Or.imp iha ihb) ihc
  | recordRestrict _ _ _ ih | fieldAccess _ _ _ ih => exact ih hy
  | array f loc _ ih =>
    obtain ⟨element, helement, hy⟩ := mem_freeNamesIn.mp hy
    exact mem_freeNamesIn.mpr ⟨_, mem_map_of_mem helement, ih element helement hy⟩

theorem Replaced.mem_binders {term result : Term} (hreplaced : Replaced x replacement term result)
    (hy : y ∈ term.binders) : y ∈ result.binders :=
  Decidable.by_contra fun hnot =>
    hereditary_binders.of_replaced hreplaced (by simp [binders]) hnot hy

theorem mem_binders_replace (term : Term) (hy : y ∈ term.binders) :
    y ∈ (term.replace x replacement).binders :=
  (replaced_replace x replacement term).mem_binders hy

end Term

/-- The types of the names in scope. -/
abbrev Env := String → Option Ty

/-- The environment with one more name. -/
def Env.extend (env : Env) (name : String) (type : Ty) : Env :=
  fun other => if other = name then some type else env other

section

variable (convention : Ty.Convention) (s : Nat → Ty)

/-- Terms have types. -/
inductive HasType : Env → Term → Ty → Prop where
  | convert {env : Env} {term : Term} {a b : Ty} (hterm : HasType env term a)
      (hequal : Ty.Equal convention .type a b) : HasType env term b
  | reference {env : Env} {name : String} {a : Ty} (loc : Loc) (hname : env name = some a) :
      HasType env (.reference name loc) a
  | boolean (env : Env) (loc : Loc) : HasType env (.boolean loc) .boolean
  | number (env : Env) (loc : Loc) : HasType env (.number loc) .number
  | string (env : Env) (loc : Loc) : HasType env (.string loc) .string
  | unit (env : Env) (loc : Loc) : HasType env (.unit loc) .unit
  | function {env : Env} {param : Param} {body : Term} {ascribed a b : Ty} (loc : Loc)
      (hascribed : Ty.Equal convention .type (ascribed.bindHoles s) (.arrow a b))
      (hname : env param.name = none) (hbody : HasType (env.extend param.name a) body b) :
      HasType env (.function (some param) body (some ascribed) loc) (.arrow a b)
  | thunk {env : Env} {body : Term} {b : Ty} (loc : Loc) (hbody : HasType env body b) :
      HasType env (.function none body none loc) (.arrow .unit b)
  | ascribedThunk {env : Env} {body : Term} {ascribed b : Ty} (loc : Loc)
      (hascribed : Ty.Equal convention .type (ascribed.bindHoles s) (.arrow .unit b))
      (hbody : HasType env body b) :
      HasType env (.function none body (some ascribed) loc) (.arrow .unit b)
  | application {env : Env} {func arg : Term} {a b : Ty} (loc : Loc)
      (hfunc : HasType env func (.arrow a b)) (harg : HasType env arg a) :
      HasType env (.application func arg loc) b
  | conditional {env : Env} {condition consequence alternative : Term} {a : Ty} (loc : Loc)
      (hcondition : HasType env condition .boolean) (hconsequence : HasType env consequence a)
      (halternative : HasType env alternative a) :
      HasType env (.conditional condition consequence alternative loc) a
  | array {env : Env} {elements : List Term} {a : Ty} (loc : Loc)
      (helements : ∀ element ∈ elements, HasType env element a) :
      HasType env (.array elements loc) (.arrayOf a)
  | emptyRecord (env : Env) (loc : Loc) : HasType env (.emptyRecord loc) (.record .emptyRow none)
  | select {env : Env} {key : String} {record : Term} {a row : Ty} (loc : Loc)
      (hrecord : HasType env record (.record (.field key a row) none)) :
      HasType env (.fieldAccess key record loc) a
  | restrict {env : Env} {key : String} {record : Term} {a row : Ty} (loc : Loc)
      (hrecord : HasType env record (.record (.field key a row) none)) :
      HasType env (.recordRestrict key record loc) (.record row none)
  | extend {env : Env} {key : String} {value record : Term} {a row : Ty} (loc : Loc)
      (hvalue : HasType env value a) (hrecord : HasType env record (.record row none)) :
      HasType env (.recordExtend key value record loc) (.record (.field key a row) none)
  | update {env : Env} {key : String} {value record : Term} {a row : Ty} (loc loc' : Loc)
      (hvalue : HasType env value a)
      (hrecord : HasType env (.recordRestrict key record loc') (.record row none)) :
      HasType env (.recordExtend key value record loc) (.record (.field key a row) none)
  | letValue {env : Env} {name : String} {value body : Term} {a b : Ty} (nameLoc loc : Loc)
      (hisValue : value.isValue = true) (hname : env name = none)
      (huncaptured : ∀ free ∈ value.freeNames, free ∉ body.binders) (hvalue : HasType env value a)
      (hbody : HasType env (body.replace name value) b) :
      HasType env (.letIn name value body nameLoc loc) b
  | letOnce {env : Env} {name : String} {value body : Term} {a b : Ty} (nameLoc loc : Loc)
      (hisValue : value.isValue = false) (hname : env name = none) (hvalue : HasType env value a)
      (hbody : HasType (env.extend name a) body b) :
      HasType env (.letIn name value body nameLoc loc) b

end

namespace HasType

variable {convention : Ty.Convention} {s : Nat → Ty} {env : Env} {term body : Term} {ty : Ty}
  {y name : String} {loc : Loc}

theorem isSome_of_mem_freeNames (hterm : HasType convention s env term ty)
    (hy : y ∈ term.freeNames) : (env y).isSome := by
  induction hterm with
  | convert _ _ ih => exact ih hy
  | reference loc hname =>
    obtain rfl := mem_singleton.mp hy
    rw [hname, Option.isSome_some]
  | boolean | number | string | unit | emptyRecord => cases hy
  | @function env param body ascribed a b loc hascribed hname hbody ih =>
    obtain ⟨hbody, hne⟩ := mem_filter.mp hy
    have hsome := ih hbody
    have hother : y ≠ param.name := by
      rintro rfl
      simp at hne
    simpa [Env.extend, hother] using hsome
  | thunk loc hbody ih | ascribedThunk loc hascribed hbody ih =>
    exact ih (mem_filter.mp hy).1
  | application loc _ _ ih ih' | extend loc _ _ ih ih' | update loc loc' _ _ ih ih' =>
    rcases mem_append.mp hy with hy | hy
    · exact ih hy
    · exact ih' hy
  | conditional loc _ _ _ ih ih' ih'' =>
    simp only [freeNames, mem_append] at hy
    rcases hy with (hy | hy) | hy
    · exact ih hy
    · exact ih' hy
    · exact ih'' hy
  | array loc _ ih =>
    obtain ⟨element, helement, hy⟩ := mem_freeNamesIn.mp hy
    exact ih element helement hy
  | select loc _ ih | restrict loc _ ih => exact ih hy
  | @letValue env name value body a b nameLoc loc hisValue hname huncaptured _ _ ih ih' =>
    rcases mem_append.mp hy with hy | hy
    · exact ih hy
    · obtain ⟨hbody, hne⟩ := mem_filter.mp hy
      exact ih' (mem_freeNames_replace (by simpa using hne) body hbody)
  | @letOnce env name value body a b nameLoc loc hisValue hname _ _ ih ih' =>
    rcases mem_append.mp hy with hy | hy
    · exact ih hy
    · obtain ⟨hbody, hne⟩ := mem_filter.mp hy
      have hother : y ≠ name := by simpa using hne
      simpa [Env.extend, hother] using ih' hbody

theorem eq_none_of_mem_binders (hterm : HasType convention s env term ty) (hy : y ∈ term.binders) :
    env y = none := by
  have hextended : ∀ {env : Env} {name : String} {a : Ty}, env.extend name a y = none →
      env y = none := by
    intro env name a hnone
    unfold Env.extend at hnone
    split at hnone
    · cases hnone
    · exact hnone
  induction hterm with
  | convert _ _ ih => exact ih hy
  | reference | boolean | number | string | unit | emptyRecord => cases hy
  | function loc hascribed hname hbody ih =>
    rcases mem_append.mp hy with hy | hy
    · obtain rfl : y = _ := by simpa using hy
      exact hname
    · exact hextended (ih hy)
  | thunk loc hbody ih | ascribedThunk loc hascribed hbody ih => exact ih hy
  | application loc _ _ ih ih' | extend loc _ _ ih ih' | update loc loc' _ _ ih ih' =>
    rcases mem_append.mp hy with hy | hy
    · exact ih hy
    · exact ih' hy
  | conditional loc _ _ _ ih ih' ih'' =>
    simp only [binders, mem_append] at hy
    rcases hy with (hy | hy) | hy
    · exact ih hy
    · exact ih' hy
    · exact ih'' hy
  | array loc _ ih =>
    obtain ⟨element, helement, hy⟩ := mem_bindersIn.mp hy
    exact ih element helement hy
  | select loc _ ih | restrict loc _ ih => exact ih hy
  | @letValue env name value body a b nameLoc loc hisValue hname huncaptured _ _ ih ih' =>
    simp only [binders, mem_cons, mem_append] at hy
    rcases hy with rfl | hy | hy
    · exact hname
    · exact ih hy
    · exact ih' (mem_binders_replace body hy)
  | letOnce nameLoc loc hisValue hname _ _ ih ih' =>
    simp only [binders, mem_cons, mem_append] at hy
    rcases hy with rfl | hy | hy
    · exact hname
    · exact ih hy
    · exact hextended (ih' hy)

/-- A value that is typed next to the body it was put into had no name captured. -/
theorem not_captured {value : Term} {a b : Ty} (hvalue : HasType convention s env value a)
    (hbody : HasType convention s env (body.replace name value) b) :
    ∀ free ∈ value.freeNames, free ∉ body.binders := by
  intro free hfree hbinder
  have hsome := hvalue.isSome_of_mem_freeNames hfree
  rw [hbody.eq_none_of_mem_binders (mem_binders_replace body hbinder)] at hsome
  cases hsome

theorem equal_of_reference (hterm : HasType convention s env (.reference name loc) ty) :
    ∃ a, env name = some a ∧ Ty.Equal convention .type a ty := by
  generalize hshape : Term.reference name loc = shape at hterm
  induction hterm with
  | convert _ hequal ih =>
    obtain ⟨a, hname, ha⟩ := ih hshape
    exact ⟨a, hname, ha.trans hequal⟩
  | reference loc hname =>
    cases hshape
    exact ⟨_, hname, .refl ..⟩
  | _ => cases hshape

theorem equal_of_number (hterm : HasType convention s env (.number loc) ty) :
    Ty.Equal convention .type .number ty := by
  generalize hshape : Term.number loc = shape at hterm
  induction hterm with
  | convert _ hequal ih => exact (ih hshape).trans hequal
  | number => exact .refl ..
  | _ => cases hshape

theorem branches_of_conditional {condition consequence alternative : Term}
    (hterm : HasType convention s env (.conditional condition consequence alternative loc) ty) :
    HasType convention s env consequence ty ∧ HasType convention s env alternative ty := by
  generalize hshape : Term.conditional condition consequence alternative loc = shape at hterm
  induction hterm with
  | convert _ hequal ih =>
    obtain ⟨hconsequence, halternative⟩ := ih hshape
    exact ⟨hconsequence.convert hequal, halternative.convert hequal⟩
  | conditional loc _ hconsequence halternative =>
    cases hshape
    exact ⟨hconsequence, halternative⟩
  | _ => cases hshape

theorem body_of_ascribedThunk {ascribed : Ty}
    (hterm : HasType convention s env (.function none body (some ascribed) loc) ty) :
    ∃ b, HasType convention s env body b ∧ Ty.Equal convention .type (.arrow .unit b) ty := by
  generalize hshape : Term.function none body (some ascribed) loc = shape at hterm
  induction hterm with
  | convert _ hequal ih =>
    obtain ⟨b, hbody, hb⟩ := ih hshape
    exact ⟨b, hbody, hb.trans hequal⟩
  | ascribedThunk loc _ hbody =>
    cases hshape
    exact ⟨_, hbody, .refl ..⟩
  | _ => cases hshape

end HasType

end RowScript
