import RowScript.Proofs.FreeNames
import RowScript.Proofs.ScriptCommands
import Mathlib.Data.List.Forall2

/-!
# Applications of declared generic types

A declared type is applied to its arguments one by one, and each step goes through what was put in
before. So an argument comes out changed if it mentions a name that is spelled like a later
parameter.
-/

namespace RowScript

open List Option Ty

variable {params : List String}

namespace Ty

variable {body type : Ty} {name : String} {earlier later pairs : List (String × Ty)}

/-- A type applied to arguments, one after the other. -/
def appliedTo (callee : Ty) (args : List (Ty × Loc)) : Ty :=
  args.foldl (fun callee arg => .app callee arg.1 arg.2) callee

/-- Replaces names one after the other. A later step goes through what an earlier one has
put in. -/
def replaceInTurn (ty : Ty) (pairs : List (String × Ty)) : Ty :=
  pairs.foldl (fun ty pair => ty.replaceName pair.1 pair.2) ty

/-- Replaces names where they are free, all of them at once. -/
def replaceNames (pairs : List (String × Ty)) : Ty → Ty
  | .ident name loc => (pairs.lookup name).getD (.ident name loc)
  | .hole id => .hole id
  | .emptyRow => .emptyRow
  | .arrow arg ret => .arrow (replaceNames pairs arg) (replaceNames pairs ret)
  | .generic param body => .generic param (replaceNames (pairs.filter (·.1 ≠ param)) body)
  | .app callee arg loc => .app (replaceNames pairs callee) (replaceNames pairs arg) loc
  | .record row label => .record (replaceNames pairs row) label
  | .field key type base => .field key (replaceNames pairs type) (replaceNames pairs base)

/-- What is left in the end in the place of each name when names are replaced one after the
other. -/
def inTurn : List (String × Ty) → List (String × Ty)
  | [] => []
  | (name, type) :: later => (name, type.replaceInTurn later) :: inTurn later

theorem replaceNames_nil : body.replaceNames [] = body := by
  induction body with
  | ident | hole | emptyRow => rfl
  | arrow a b iha ihb | app a b _ iha ihb | field _ a b iha ihb => rw [replaceNames, iha, ihb]
  | generic param a ih => rw [replaceNames, filter_nil, ih]
  | record a label ih => rw [replaceNames, ih]

theorem lookup_replaced (pairs : List (String × Ty)) (name target : String) (type : Ty) :
    (pairs.map (fun pair => (pair.1, pair.2.replaceName target type)) ++ [(target, type)]).lookup
        name =
      ((pairs.lookup name).map (·.replaceName target type)).or
        (if name = target then some type else none) := by
  induction pairs with
  | nil =>
    by_cases hname : name = target
    · simp [hname]
    · simp [hname, lookup_cons, beq_false_of_ne hname]
  | cons pair pairs ih =>
    obtain ⟨other, found⟩ := pair
    by_cases hname : name = other
    · simp [hname]
    · rw [map_cons, cons_append, lookup_cons, lookup_cons,
        beq_false_of_ne hname]
      exact ih

/-- One more step, after names were replaced all at once. Without type parameters inside,
nothing is hidden from it. -/
theorem replaceName_replaceNames (hmono : body.isMonomorphic) (pairs : List (String × Ty))
    (target : String) (type : Ty) :
    (body.replaceNames pairs).replaceName target type = body.replaceNames
      (pairs.map (fun pair => (pair.1, pair.2.replaceName target type)) ++ [(target, type)]) := by
  induction body with
  | ident name loc =>
    rw [replaceNames, replaceNames, lookup_replaced]
    cases pairs.lookup name with
    | some found => rfl
    | none => by_cases hname : name = target <;> simp [replaceName, hname]
  | hole | emptyRow => rfl
  | arrow a b iha ihb | app a b _ iha ihb | field _ a b iha ihb =>
    rw [isMonomorphic, Bool.and_eq_true] at hmono
    rw [replaceNames, replaceName, iha hmono.1, ihb hmono.2, replaceNames]
  | generic => cases hmono
  | record a label ih => rw [replaceNames, replaceName, ih hmono, replaceNames]

theorem replaceInTurn_replaceNames (hmono : body.isMonomorphic) (outer pairs : List (String × Ty)) :
    (body.replaceNames outer).replaceInTurn pairs = body.replaceNames
      (outer.map (fun pair => (pair.1, pair.2.replaceInTurn pairs)) ++ inTurn pairs) := by
  induction pairs generalizing outer with
  | nil => simp [replaceInTurn, inTurn]
  | cons pair later ih =>
    obtain ⟨target, type⟩ := pair
    calc (body.replaceNames outer).replaceInTurn ((target, type) :: later)
        = ((body.replaceNames outer).replaceName target type).replaceInTurn later := rfl
      _ = _ := by
        rw [replaceName_replaceNames hmono, ih, List.map_append, List.map_map,
          List.append_assoc]
        rfl

/-- Names that are replaced one after the other are replaced at once by what is left in
their places. -/
theorem replaceInTurn_eq_replaceNames (hmono : body.isMonomorphic) (pairs : List (String × Ty)) :
    body.replaceInTurn pairs = body.replaceNames (inTurn pairs) := by
  have hturns := replaceInTurn_replaceNames hmono [] pairs
  rwa [replaceNames_nil, map_nil, nil_append] at hturns

theorem agrees_refl (ty : Ty) : ty.agrees ty := by
  induction ty <;> simp_all [agrees]

/-- Two substitutions have the same outcome exactly if they put the same in the place of
each name that is mentioned. -/
theorem agrees_replaceNames_iff {first second : List (String × Ty)} (hmono : body.isMonomorphic)
    (hkeys : ∀ name, (first.lookup name).isSome = (second.lookup name).isSome) :
    (body.replaceNames first).agrees (body.replaceNames second) ↔
      ∀ name type type', body.mentionsName name → first.lookup name = some type →
        second.lookup name = some type' → type.agrees type' := by
  induction body with
  | ident name loc =>
    simp only [replaceNames, mentionsName, decide_eq_true_eq]
    have hkey := hkeys name
    cases hfirst : first.lookup name with
    | none =>
      rw [hfirst, isSome_none, eq_comm, isSome_eq_false_iff,
        isNone_iff_eq_none] at hkey
      simp only [hkey, getD_none, agrees_refl, true_iff]
      rintro _ type type' rfl hsome
      simp [hfirst] at hsome
    | some type =>
      rw [hfirst, isSome_some, eq_comm, isSome_iff_exists] at hkey
      obtain ⟨type', hsecond⟩ := hkey
      simp only [hsecond, getD_some]
      exact ⟨by grind, fun hagrees => hagrees name type type' rfl hfirst hsecond⟩
  | hole | emptyRow => simp [replaceNames, agrees, mentionsName]
  | arrow a b iha ihb | app a b _ iha ihb | field _ a b iha ihb =>
    rw [isMonomorphic, Bool.and_eq_true] at hmono
    simp only [replaceNames, agrees, mentionsName, decide_true, Bool.true_and, Bool.and_eq_true,
      Bool.or_eq_true, iha hmono.1, ihb hmono.2]
    grind
  | generic => cases hmono
  | record a label ih =>
    simp only [replaceNames, agrees, decide_true, Bool.and_true, mentionsName]
    exact ih hmono

theorem isSome_lookup_inTurn (pairs : List (String × Ty)) (name : String) :
    ((inTurn pairs).lookup name).isSome = (pairs.lookup name).isSome := by
  induction pairs with
  | nil => rfl
  | cons pair later ih =>
    rw [inTurn, lookup_cons, lookup_cons]
    cases name == pair.1 with
    | true => rfl
    | false => exact ih

/-- Each name finds what was put in its place and changed by the steps behind it. -/
theorem lookup_inTurn_append (hname : name ∉ earlier.map Prod.fst) :
    (inTurn (earlier ++ (name, type) :: later)).lookup name = some (type.replaceInTurn later) := by
  induction earlier with
  | nil => simp [inTurn]
  | cons pair earlier ih =>
    rw [map_cons, mem_cons, not_or] at hname
    rw [cons_append, inTurn, lookup_cons, beq_false_of_ne hname.1]
    exact ih hname.2

theorem lookup_append_cons (hname : name ∉ earlier.map Prod.fst) :
    (earlier ++ (name, type) :: later).lookup name = some type := by
  rw [lookup_eq_some_iff]
  refine ⟨earlier, later, rfl, fun pair hpair => ?_⟩
  rw [bne_iff_ne]
  rintro rfl
  exact hname (mem_map_of_mem hpair)

/-- Replacing one after the other is replacing at once exactly if each replacement for a
name that is mentioned withstands the steps behind it. -/
theorem agrees_inTurn_iff (hmono : body.isMonomorphic) (hnodup : (pairs.map Prod.fst).Nodup) :
    (body.replaceNames (inTurn pairs)).agrees (body.replaceNames pairs) ↔
      ∀ earlier name type later, pairs = earlier ++ (name, type) :: later →
        body.mentionsName name → (type.replaceInTurn later).agrees type := by
  rw [agrees_replaceNames_iff hmono (isSome_lookup_inTurn pairs)]
  constructor
  · rintro hagrees earlier name type later rfl hname
    have hfresh : name ∉ earlier.map Prod.fst := by
      simp only [map_append, map_cons, nodup_append] at hnodup
      intro hmem
      exact hnodup.2.2 name hmem name mem_cons_self rfl
    exact hagrees name _ _ hname (lookup_inTurn_append hfresh) (lookup_append_cons hfresh)
  · intro hagrees name type type' hname hturn hpairs
    obtain ⟨earlier, later, rfl, hearlier⟩ := lookup_eq_some_iff.mp hpairs
    have hfresh : name ∉ earlier.map Prod.fst := by
      intro hmem
      obtain ⟨pair, hpair, hkey⟩ := mem_map.mp hmem
      have hne := hearlier pair hpair
      simp [hkey] at hne
    rw [lookup_inTurn_append hfresh] at hturn
    cases hturn
    exact hagrees earlier name type' later rfl hname

theorem replaceInTurn_of_not_mentionsName {ty : Ty}
    (hpairs : ∀ pair ∈ pairs, ty.mentionsName pair.1 = false) : ty.replaceInTurn pairs = ty := by
  induction pairs with
  | nil => rfl
  | cons pair later ih =>
    have hhead := hpairs pair mem_cons_self
    have htail := ih fun other hother => hpairs other (mem_cons_of_mem _ hother)
    rw [replaceInTurn, foldl_cons, replaceName_of_not_mentionsName hhead]
    exact htail

/-- Replacements that mention no later name are put in as they are. -/
theorem inTurn_eq_self
    (hpairs : pairs.Pairwise fun pair later => pair.2.mentionsName later.1 = false) :
    inTurn pairs = pairs := by
  induction pairs with
  | nil => rfl
  | cons pair later ih =>
    obtain ⟨hpair, hlater⟩ := pairwise_cons.mp hpairs
    rw [inTurn, replaceInTurn_of_not_mentionsName hpair, ih hlater]

theorem foldr_generic_params_body (ty : Ty) : ty.params.foldr generic ty.body = ty := by
  induction ty with
  | generic param body ih => simp [params, Ty.body, ih]
  | _ => rfl

theorem replaceName_foldr_generic (hname : name ∉ params) (type : Ty) :
    (params.foldr generic body).replaceName name type =
      params.foldr generic (body.replaceName name type) := by
  induction params with
  | nil => rfl
  | cons param params ih =>
    rw [mem_cons, not_or] at hname
    rw [foldr_cons, replaceName, if_neg (Ne.symm hname.1), ih hname.2]
    rfl

end Ty

namespace Context

variable {ctx : Context} {loc : Option Loc} {callee declared result : Ty} {args : List (Ty × Loc)}

/-- An application has a normal form only if what is applied has one. -/
theorem exists_normalize_of_appliedTo
    (hrun : ctx.normalize loc (callee.appliedTo args) = .ok result) :
    ∃ current, ctx.normalize loc callee = .ok current := by
  induction args generalizing callee with
  | nil => exact ⟨result, hrun⟩
  | cons arg args ih =>
    obtain ⟨current, hcurrent⟩ := ih hrun
    simp only [normalize, Except.bind_eq_ok] at hcurrent
    obtain ⟨callee', hcallee, _⟩ := hcurrent
    exact ⟨callee', hcallee⟩

theorem normalize_appliedTo_generic {body : Ty}
    (hcallee : ctx.normalize loc callee = .ok (params.foldr .generic body)) (hnodup : params.Nodup)
    (hlength : args.length = params.length)
    (hrun : ctx.normalize loc (callee.appliedTo args) = .ok result) :
    ∃ types, Forall₂ (fun arg type => ctx.normalize loc arg.1 = .ok type) args types ∧
      result = body.replaceInTurn (params.zip types) := by
  induction args generalizing callee params body with
  | nil =>
    obtain rfl := eq_nil_of_length_eq_zero hlength.symm
    have hsame := hcallee.symm.trans hrun
    cases hsame
    exact ⟨[], .nil, rfl⟩
  | cons arg args ih =>
    have hnext : ctx.normalize loc ((app callee arg.1 arg.2).appliedTo args) = .ok result :=
      hrun
    obtain ⟨current, hcurrent⟩ := exists_normalize_of_appliedTo hnext
    cases params with
    | nil => cases hlength
    | cons param params =>
      obtain ⟨hparam, hnodup⟩ := nodup_cons.mp hnodup
      have hstep := hcurrent
      simp only [normalize, hcallee, Except.bind_eq_ok] at hstep
      obtain ⟨_, hgeneric, type, htype, hstep⟩ := hstep
      cases hgeneric
      rw [foldr_cons, applyType, replaceName_foldr_generic hparam] at hstep
      cases hstep
      obtain ⟨types, htypes, hresult⟩ := ih hcurrent hnodup (Nat.succ.inj hlength) hnext
      exact ⟨type :: types, .cons htype htypes, hresult⟩

theorem applyType_alias {name param : String} {inner : Ty} {aliasLoc : Loc} {isGlobal : Bool}
    (hfind : ctx.find? name = some (.typeAlias (.generic param inner) aliasLoc isGlobal))
    (hnominal : (Ty.generic param inner).isNominal = false) (nameLoc : Loc) (arg : Ty)
    (appLoc : Loc) :
    ctx.applyType (.ident name nameLoc) arg appLoc loc = .ok (inner.replaceName param arg) := by
  simp only [applyType, hfind, hnominal]
  rfl

/-- A declared type with parameters, applied to as many arguments, is its body with the
arguments in the place of the parameters, all at once. Before that, an argument is changed
where it mentions a later parameter. The outcome is as if it were not, apart from ranges,
exactly if every argument whose parameter is used comes out of these changes as it was; and
it is the same with its ranges if no argument mentions a later parameter. -/
theorem normalize_appliedTo_alias {name : String} {nameLoc aliasLoc : Loc} {isGlobal : Bool}
    (hfind : ctx.find? name = some (.typeAlias declared aliasLoc isGlobal))
    (hnominal : declared.isNominal = false) (hmono : declared.body.isMonomorphic = true)
    (hnodup : declared.params.Nodup) (hparams : declared.params ≠ [])
    (hlength : args.length = declared.params.length)
    (hrun : ctx.normalize loc ((Ty.ident name nameLoc).appliedTo args) = .ok result) :
    ∃ types, List.Forall₂ (fun arg type => ctx.normalize loc arg.1 = .ok type) args types ∧
      result = declared.body.replaceNames (Ty.inTurn (declared.params.zip types)) ∧
      (result.agrees (declared.body.replaceNames (declared.params.zip types)) = true ↔
        ∀ earlier param type later,
          declared.params.zip types = earlier ++ (param, type) :: later →
          declared.body.mentionsName param = true →
            (type.replaceInTurn later).agrees type = true) ∧
      ((declared.params.zip types).Pairwise
          (fun pair later => pair.2.mentionsName later.1 = false) →
        result = declared.body.replaceNames (declared.params.zip types)) := by
  have hturns : ∃ types,
      List.Forall₂ (fun arg type => ctx.normalize loc arg.1 = .ok type) args types ∧
        result = declared.body.replaceInTurn (declared.params.zip types) := by
    cases declared with
    | generic param inner =>
      rw [params] at hnodup hlength ⊢
      obtain ⟨hparam, hnodup⟩ := nodup_cons.mp hnodup
      cases args with
      | nil => cases hlength
      | cons arg args =>
        have hnext : ctx.normalize loc
          ((app (.ident name nameLoc) arg.1 arg.2).appliedTo args) = .ok result := hrun
        obtain ⟨current, hcurrent⟩ := exists_normalize_of_appliedTo hnext
        have hstep := hcurrent
        simp only [normalize, Except.bind_eq_ok] at hstep
        obtain ⟨_, ⟨_, _, hcallee⟩, type, htype, hstep⟩ := hstep
        cases hcallee
        rw [applyType_alias hfind hnominal] at hstep
        cases hstep
        rw [← foldr_generic_params_body inner, replaceName_foldr_generic hparam]
          at hcurrent
        obtain ⟨types, htypes, hresult⟩ :=
          normalize_appliedTo_generic hcurrent hnodup (Nat.succ.inj hlength) hnext
        exact ⟨type :: types, .cons htype htypes, hresult⟩
    | _ => exact absurd rfl hparams
  obtain ⟨types, htypes, hresult⟩ := hturns
  have hpairs : ((declared.params.zip types).map Prod.fst).Nodup := by
    rwa [map_fst_zip (Nat.le_of_eq (hlength.symm.trans htypes.length_eq))]
  rw [replaceInTurn_eq_replaceNames hmono] at hresult
  subst hresult
  refine ⟨types, htypes, rfl, agrees_inTurn_iff hmono hpairs, fun hpairwise => ?_⟩
  rw [inTurn_eq_self hpairwise]

end Context

/-- A record of two fields, each of a type of its own. -/
def pairType : Ty :=
  .generic "a" (.generic "b" (.record (.field "y" (.named "b") (.field "x" (.named "a") .emptyRow))
    none))

/-- The type of pairs, below two type parameters that are spelled like its own. -/
def pairContext : Context :=
  [⟨0, "b", .typeParameter⟩, ⟨0, "a", .typeParameter⟩,
    ⟨0, "P", .typeAlias pairType .synthetic false⟩]

/-- A record with one field of type `a`. -/
def holderType : Ty := .record (.field "z" (.named "a") .emptyRow) none

/-- The first argument mentions the first parameter, and the second one the second. Both are
put in as they are. -/
theorem Context.normalize_appliedTo_alias_pair :
    pairContext.normalize none
        ((Ty.named "P").appliedTo [(holderType, .synthetic), (.named "b", .synthetic)]) =
      .ok (.record (.field "y" (.named "b") (.field "x" holderType .emptyRow)) none) ∧
    ∃ types, List.Forall₂ (fun arg type => pairContext.normalize none arg.1 = .ok type)
        [(holderType, Loc.synthetic), (.named "b", .synthetic)] types ∧
      Ty.record (.field "y" (.named "b") (.field "x" holderType .emptyRow)) none =
        pairType.body.replaceNames (pairType.params.zip types) := by
  have hrun : pairContext.normalize none
      ((named "P").appliedTo [(holderType, .synthetic), (.named "b", .synthetic)]) =
    .ok (.record (.field "y" (.named "b") (.field "x" holderType .emptyRow)) none) := rfl
  have hfind : pairContext.find? "P" = some (.typeAlias pairType .synthetic false) := rfl
  obtain ⟨types, htypes, -, -, hresult⟩ := Context.normalize_appliedTo_alias hfind rfl rfl
    (by decide) (by decide) rfl hrun
  refine ⟨hrun, types, htypes, hresult ?_⟩
  cases htypes with
  | cons hfirst hrest =>
    cases hrest with
    | cons hsecond hrest =>
      cases hrest
      cases hfirst
      cases hsecond
      decide

/-- A script that declares the type of pairs. -/
def pairScript : String := "/*\ntype P<a, b> = \x7b x: a, y: b \x7d;\n*/"

/-- Below a type parameter `b`, a pair of `b` and a number comes out as a pair of numbers:
the argument `b` is taken for the second parameter of the declared type. -/
theorem Context.normalize_appliedTo_captured :
    ∃ globals commands ctx loaded final declared result,
      preludeContext 60 {} = .ok globals loaded ∧
      parseScript pairScript.toList = .ok commands ∧
      checkCommands 60 globals commands loaded = .ok ctx final ∧
      ctx.alias? "P" = some declared ∧
      (ctx.withTypeParameter "b").normalize none ((Ty.named "P").appliedTo
        [(.named "b", .synthetic), (.number, .synthetic)]) = .ok result ∧
      result.toText = "\x7b x: Number, y: Number \x7d" ∧
      (declared.body.replaceNames (declared.params.zip [.named "b", .number])).toText =
        "\x7b x: b, y: Number \x7d" := by
  have hyields : (checkScript 60 pairScript.toList).yields {} (fun result _ =>
      Except.passes ((result.2.2.withTypeParameter "b").normalize none ((named "P").appliedTo
        [(.named "b", .synthetic), (.number, .synthetic)]))
          (fun applied => decide (applied.toText = "\x7b x: Number, y: Number \x7d")) &&
      decide ((result.2.2.alias? "P").map (fun declared =>
        (declared.body.replaceNames (declared.params.zip [.named "b", .number])).toText) =
          some "\x7b x: b, y: Number \x7d")) = true := by
    rw [checkScript, pairScript, preludeContext_eq, String.toList_ofList]
    decide +kernel
  obtain ⟨⟨globals, commands, ctx⟩, final, hrun, htest⟩ := CheckM.exists_of_yields hyields
  obtain ⟨hpasses, halias⟩ := Bool.and_eq_true_iff.mp htest
  obtain ⟨result, hresult, htext⟩ := Except.exists_of_passes hpasses
  obtain ⟨declared, hdeclared, hsubstituted⟩ := map_eq_some_iff.mp (of_decide_eq_true halias)
  obtain ⟨loaded, hglobals, hscript, hrun⟩ := checkScript_eq_ok hrun
  exact ⟨globals, commands, ctx, loaded, final, declared, result, hglobals, hscript, hrun,
    hdeclared, hresult, of_decide_eq_true htext, hsubstituted⟩

end RowScript
