import Mathlib.Data.List.Nodup
import Mathlib.Data.List.Pairwise
import RowScript.Proofs.Comments
import RowScript.Proofs.SyntaxFaults

/-!
# Which comment gives a function its type

Where the semicolon of a node is missing, its range covers the comment above the next declaration,
and such a comment is not looked at. `Comment.Leads` is the condition under which a comment is
looked at.
-/

namespace RowScript

open Text Comment List Program

/-- The comment ends before the declaration, it does not start inside the range of what
precedes the declaration, and no other comment stands between the two, the one with the
type declarations apart. -/
def Text.Comment.Leads (comments : List Comment) (header : Option Comment)
    (previousEnd : Option Position) (start : Position) (comment : Comment) : Prop :=
  comment.loc.stop ≤ start ∧ (∀ stop, previousEnd = some stop → stop ≤ comment.loc.start) ∧
    ∀ other ∈ comments, comment.offset < other.offset → other.loc.stop ≤ start →
      header = some other

section Ordered

variable {comments : List Comment} {header : Option Comment} {previousEnd : Option Position}
  {start : Position} {comment a b : Comment}

theorem eq_of_offset_eq (hordered : comments.Pairwise Before) (ha : a ∈ comments)
    (hb : b ∈ comments) (hoffset : a.offset = b.offset) : a = b := by
  have hnodup : (comments.map offset).Nodup :=
    pairwise_map.mpr (hordered.imp fun hbefore => Nat.ne_of_lt hbefore.offset)
  exact inj_on_of_nodup_map hnodup ha hb hoffset

theorem before_or_before (hordered : comments.Pairwise Before) (ha : a ∈ comments)
    (hb : b ∈ comments) (hne : a ≠ b) : a.Before b ∨ b.Before a := by
  obtain ⟨front, rest, rfl⟩ := append_of_mem ha
  obtain ⟨-, hrest, hfront⟩ := pairwise_append.mp hordered
  rcases mem_append.mp hb with hb | hb
  · exact .inr (hfront b hb a mem_cons_self)
  · rcases mem_cons.mp hb with rfl | hb
    · exact absurd rfl hne
    · exact .inl ((pairwise_cons.mp hrest).1 b hb)

/-- Whether a comment can belong to a declaration. -/
def isCandidate (header : Option Comment) (previousEnd : Option Position) (start : Position)
    (comment : Comment) : Bool :=
  !header.any (·.offset = comment.offset) && !decide (start < comment.loc.stop)
    && !previousEnd.any (fun stop => decide (comment.loc.start < stop))

theorem isCandidate_iff (hordered : comments.Pairwise Before)
    (hheader : ∀ other, header = some other → other ∈ comments) (hcomment : comment ∈ comments) :
    isCandidate header previousEnd start comment ↔
      header ≠ some comment ∧ comment.loc.stop ≤ start ∧
        ∀ stop, previousEnd = some stop → stop ≤ comment.loc.start := by
  have hany : header.any (·.offset = comment.offset) = true ↔ header = some comment := by
    cases header with
    | none => simp
    | some other =>
      constructor
      · intro hoffset
        rw [eq_of_offset_eq hordered (hheader other rfl) hcomment (by simpa using hoffset)]
      · rintro ⟨⟩
        simp
  have hprevious : previousEnd.any (fun stop => decide (comment.loc.start < stop)) = false ↔
      ∀ stop, previousEnd = some stop → stop ≤ comment.loc.start := by
    cases previousEnd with
    | none => simp
    | some stop =>
      simp only [Option.any_some, decide_eq_false_iff_not, Option.some.injEq, forall_eq']
      exact Position.le_iff_not_lt.symm
  simp only [isCandidate, Bool.and_eq_true, Bool.not_eq_true', decide_eq_false_iff_not, hprevious,
    and_assoc]
  rw [← Bool.not_eq_true, hany]
  exact Iff.rfl

theorem find?_reverse_eq_some_iff (hordered : comments.Pairwise Before)
    {test : Comment → Bool} (hcomment : comment ∈ comments) :
    comments.reverse.find? test = some comment ↔
      test comment ∧
        ∀ other ∈ comments, comment.offset < other.offset → test other = false := by
  constructor
  · intro hfind
    obtain ⟨htest, later, earlier, hsplit, hlater⟩ := find?_eq_some_iff_append.mp hfind
    refine ⟨htest, ?_⟩
    intro other hother hoffset
    rw [← reverse_reverse comments, hsplit] at hordered
    have hmem : other ∈ later ++ comment :: earlier := by
      rw [← hsplit]
      exact mem_reverse.mpr hother
    rcases mem_append.mp hmem with hmem | hmem
    · simpa using hlater other hmem
    · -- what was not passed by the search does not come later
      have hbefore : other = comment ∨ other.Before comment := by
        rcases mem_cons.mp hmem with heq | hmem
        · exact .inl heq
        · rw [reverse_append, reverse_cons, append_assoc] at hordered
          obtain ⟨-, -, hfront⟩ := pairwise_append.mp hordered
          exact .inr (hfront other (mem_reverse.mpr hmem) comment (by simp))
      rcases hbefore with rfl | hbefore
      · exact absurd hoffset (Nat.lt_irrefl _)
      · exact absurd hbefore.offset (Nat.lt_asymm hoffset)
  · rintro ⟨htest, hlater⟩
    obtain ⟨front, rest, rfl⟩ := append_of_mem hcomment
    apply find?_eq_some_iff_append.mpr
    refine ⟨htest, rest.reverse, front.reverse, by simp, ?_⟩
    intro other hother
    have hother := mem_reverse.mp hother
    obtain ⟨-, hrest, -⟩ := pairwise_append.mp hordered
    have hoffset := ((pairwise_cons.mp hrest).1 other hother).offset
    rw [hlater other (by simp [hother]) hoffset]
    rfl

theorem leadingComment_eq_some_iff (hordered : comments.Pairwise Before)
    (hspan : ∀ comment ∈ comments, comment.loc.start ≤ comment.loc.stop)
    (hheader : ∀ other, header = some other → other ∈ comments)
    (hcomment : comment ∈ comments) (hne : header ≠ some comment) :
    leadingComment comments header previousEnd start = some comment ↔
      comment.Leads comments header previousEnd start := by
  have hcandidate : ∀ other ∈ comments, isCandidate header previousEnd start other ↔ _ :=
    fun other hother => isCandidate_iff hordered hheader hother
  apply (find?_reverse_eq_some_iff hordered hcomment).trans
  constructor
  · rintro ⟨htest, hlater⟩
    obtain ⟨-, hstop, hprevious⟩ := (hcandidate comment hcomment).mp htest
    refine ⟨hstop, hprevious, ?_⟩
    intro other hother hoffset hbefore
    by_contra hheader'
    -- a later comment starts behind this one, so behind what precedes the declaration
    have hstart : comment.loc.start ≤ other.loc.start := by
      have horder : comment.Before other := by
        rcases before_or_before hordered hcomment hother (by rintro rfl; omega) with horder | horder
        · exact horder
        · exact absurd horder.offset (Nat.lt_asymm hoffset)
      exact Position.le_trans (hspan comment hcomment) horder.stop
    have htest' : isCandidate header previousEnd start other :=
      (hcandidate other hother).mpr
        ⟨hheader', hbefore, fun stop hprev => Position.le_trans (hprevious stop hprev) hstart⟩
    have hfalse : isCandidate header previousEnd start other = false := hlater other hother hoffset
    rw [hfalse] at htest'
    cases htest'
  · rintro ⟨hstop, hprevious, hlater⟩
    refine ⟨(hcandidate comment hcomment).mpr ⟨hne, hstop, hprevious⟩, ?_⟩
    intro other hother hoffset
    apply Bool.eq_false_iff.mpr
    intro htest
    obtain ⟨hheader', hbefore, -⟩ := (hcandidate other hother).mp htest
    exact hheader' (hlater other hother hoffset hbefore)

end Ordered

theorem Expr.toTerm_arrow_eq_ok {loc : Loc} {params : List Identifier} {body : Body} {term : Term}
    (hterm : (Expr.arrow loc params body).toTerm = .ok term) :
    ∃ param inner, term = .function param inner none loc := by
  cases params with
  | nil =>
    simp only [Expr.toTerm, Except.bind_eq_ok] at hterm
    obtain ⟨inner, -, hterm⟩ := hterm
    cases hterm
    exact ⟨none, inner, rfl⟩
  | cons param others =>
    cases others with
    | nil =>
      simp only [Expr.toTerm, Except.bind_eq_ok] at hterm
      obtain ⟨inner, -, hterm⟩ := hterm
      cases hterm
      exact ⟨some ⟨param.name, param.loc⟩, inner, rfl⟩
    | cons second others => cases hterm

section WrittenType

variable {text : List Char} {name : String} {loc : Loc} {params : List Identifier} {body : Body}
  {ascribed : Option Ty} {comment : Comment}

/-- A line comment on the line above is read as the type. -/
theorem writtenType_line (hline : comment.isBlock = false)
    (habove : comment.loc.stop.line = loc.start.line - 1)
    (hrun : writtenType text (some comment) name (.arrow loc params body) = .ok ascribed) :
    ∃ written type, Signature.ofComment text comment name = .ok written ∧
      written.toTy = .ok type ∧ ascribed = some type := by
  simp only [writtenType, habove, hline, ne_eq, not_true_eq_false, if_false, Bool.false_eq_true,
    Except.bind_eq_ok] at hrun
  obtain ⟨written, hwritten, type, htype, hrun⟩ := hrun
  refine ⟨written, type, hwritten, htype, ?_⟩
  cases type <;> cases hrun <;> rfl

/-- Other comments give no type: a block comment on the line above is refused. -/
theorem writtenType_none {comment : Option Comment}
    (hother : ∀ other, comment = some other → other.loc.stop.line = loc.start.line - 1 →
      other.isBlock)
    (hrun : writtenType text comment name (.arrow loc params body) = .ok ascribed) :
    ascribed = none := by
  cases comment with
  | none =>
    cases hrun
    rfl
  | some other =>
    by_cases habove : other.loc.stop.line = loc.start.line - 1
    · simp only [writtenType, habove, hother other rfl habove, ne_eq, not_true_eq_false, if_false,
        if_true] at hrun
      cases hrun
    · simp only [writtenType, ne_eq, habove, not_false_eq_true, if_true] at hrun
      cases hrun
      rfl

/-- The comment above a function is read as its type if it leads the declaration, and then
only: no other comment of the line above can be in its place. -/
theorem writtenType_leadingComment {comments : List Comment} {header : Option Comment}
    {previousEnd : Option Position} {start : Position} (hordered : comments.Pairwise Before)
    (hspan : ∀ comment ∈ comments, comment.loc.start ≤ comment.loc.stop)
    (hheader : ∀ other, header = some other → other ∈ comments ∧ other.isBlock)
    (hcomment : comment ∈ comments) (hline : comment.isBlock = false)
    (habove : comment.loc.stop.line = loc.start.line - 1)
    (hrun : writtenType text (leadingComment comments header previousEnd start) name (.arrow loc
      params body) = .ok ascribed) :
    (comment.Leads comments header previousEnd start ∧
      ∃ written type, Signature.ofComment text comment name = .ok written ∧
        written.toTy = .ok type ∧ ascribed = some type) ∨
    (¬comment.Leads comments header previousEnd start ∧ ascribed = none) := by
  have hne : header ≠ some comment := by
    intro hsome
    rw [(hheader comment hsome).2] at hline
    cases hline
  have hleads : leadingComment comments header previousEnd start = some comment ↔
      comment.Leads comments header previousEnd start :=
    leadingComment_eq_some_iff hordered hspan (fun other hother => (hheader other hother).1)
      hcomment hne
  by_cases hleading : leadingComment comments header previousEnd start = some comment
  · rw [hleading] at hrun
    exact .inl ⟨hleads.mp hleading, writtenType_line hline habove hrun⟩
  · refine .inr ⟨fun h => hleading (hleads.mpr h), writtenType_none ?_ hrun⟩
    intro other hother habove'
    have hmem : other ∈ comments := mem_reverse.mp (mem_of_find?_eq_some hother)
    have hdifferent : other ≠ comment := by
      rintro rfl
      exact hleading hother
    have hstart := Position.line_le_of_le (hspan comment hcomment)
    have hstart' := Position.line_le_of_le (hspan other hmem)
    rcases before_or_before hordered hmem hcomment hdifferent with hbefore | hbefore
    · -- a line comment before this one would end on an earlier line
      by_contra hblock
      have hearlier := hbefore.line (Bool.eq_false_iff.mpr hblock)
      omega
    · have hlater := hbefore.line hline
      omega

end WrittenType

variable {commands : List Command} {program : Program}

/-- The command at a place of a script comes from the node at that place, with the comment
that is chosen by the range of the node before it. -/
theorem TopLevel.toCommands_split {text : List Char} {comments : List Comment}
    {header : Option Comment} {isGlobal : Bool} {previousEnd : Option Position}
    {before after : List TopLevel} {node : TopLevel}
    (hrun : toCommands text comments header isGlobal previousEnd (before ++ node :: after) = .ok
      commands) :
    ∃ command, commands[before.length]? = some command ∧
      node.toCommand text (leadingComment comments header
        ((before.getLast?.map (·.loc.stop)).or previousEnd) node.loc.start) isGlobal =
          .ok command := by
  induction before generalizing previousEnd commands with
  | nil =>
    simp only [nil_append, toCommands, Except.bind_eq_ok] at hrun
    obtain ⟨command, hcommand, others, -, hrun⟩ := hrun
    cases hrun
    exact ⟨command, rfl, hcommand⟩
  | cons first rest ih =>
    simp only [cons_append, toCommands, Except.bind_eq_ok] at hrun
    obtain ⟨_, -, others, hothers, hrun⟩ := hrun
    cases hrun
    obtain ⟨command, hplace, hcommand⟩ := ih hothers
    refine ⟨command, by simpa using hplace, ?_⟩
    rw [getLast?_cons]
    cases hlast : rest.getLast? with
    | none | some last => simpa [hlast] using hcommand

theorem Program.comments_of_parse {text : List Char} (hprogram : parse text = .ok program) :
    program.comments = scan text := by
  unfold parse at hprogram
  simp only at hprogram
  split at hprogram
  · cases hprogram
    rfl
  · cases hprogram

/-- Take a line comment that ends on the line above a function that a script declares. Either
the script is refused for a fault in its text, or the comment leads the declaration and gives
the function its type, or it does not lead the declaration and the function has no type. -/
theorem parseScript_ascribes_iff_leads {text : List Char} {program : Program}
    {declarations : List TypeDeclaration} (hprogram : Program.parse text = .ok program)
    (hdeclarations : program.declarations text = .ok declarations)
    {before after : List TopLevel} {loc declaratorLoc arrowLoc : Loc}
    {keyword : DeclarationKeyword} {id : Identifier} {params : List Identifier} {body : Body}
    (hnodes : program.nodes declarations = before ++ .statement (.declaration loc keyword
      [.mk declaratorLoc (.identifier id) (some (.arrow arrowLoc params body))]) :: after)
    {comment : Comment} (hcomment : comment ∈ program.comments) (hline : comment.isBlock = false)
    (habove : comment.loc.stop.line = arrowLoc.start.line - 1) :
    (∃ fault, parseScript text = .error fault ∧ fault.IsSyntactic) ∨
    ∃ commands param inner ascribed, parseScript text = .ok commands ∧
      commands[before.length]? = some (.bind id.name
        (.defined (.function param inner ascribed arrowLoc) none id.loc none false) loc) ∧
      ((comment.Leads program.comments program.header (before.getLast?.map (·.loc.stop)) loc.start ∧
        ∃ written type, Signature.ofComment text comment id.name = .ok written ∧
          written.toTy = .ok type ∧ ascribed = some type) ∨
      (¬comment.Leads program.comments program.header (before.getLast?.map (·.loc.stop)) loc.start ∧
        ascribed = none)) := by
  cases hrun : parseScript text with
  | error fault => exact .inl ⟨fault, rfl, (failsInText_parseScript text).isSyntactic fault hrun⟩
  | ok commands =>
    right
    have hscan := Program.comments_of_parse hprogram
    have hordered : program.comments.Pairwise Comment.Before := by
      rw [hscan]
      exact Comment.scan_pairwise text
    have hspan : ∀ comment ∈ program.comments, comment.loc.start ≤ comment.loc.stop := by
      rw [hscan]
      exact fun comment => Comment.start_le_stop
    have hheader : ∀ other, program.header = some other →
        other ∈ program.comments ∧ other.isBlock = true :=
      fun other hother => ⟨List.mem_of_find?_eq_some hother, List.find?_some hother⟩
    have hcommands : TopLevel.toCommands text program.comments program.header false none
        (program.nodes declarations) = .ok commands := by
      obtain ⟨program', declarations', hprogram', hdeclarations', hcommands⟩ :=
        parseScript_eq_ok.mp hrun
      rw [hprogram] at hprogram'
      cases hprogram'
      rw [hdeclarations] at hdeclarations'
      cases hdeclarations'
      exact hcommands
    rw [hnodes] at hcommands
    obtain ⟨command, hplace, hcommand⟩ := TopLevel.toCommands_split hcommands
    obtain ⟨_, _, _, ascribed, term, hdeclarators, hwritten, hterm, rfl⟩ :=
      declarationCommand_eq_ok hcommand
    cases hdeclarators
    obtain ⟨param, inner, rfl⟩ := Expr.toTerm_arrow_eq_ok hterm
    rw [Option.or_none] at hwritten
    exact ⟨commands, param, inner, ascribed, rfl, hplace,
      writtenType_leadingComment hordered hspan hheader hcomment hline habove hwritten⟩

/-- Whether a script is a statement, a line comment and a function right under it. -/
def Program.endsInFunction (program : Program) : Bool :=
  match program.body, program.comments with
  | [first, .declaration loc _ [.mk _ (.identifier _) (some (.arrow arrowLoc _ _))]], [comment] =>
    !comment.isBlock && comment.loc.stop.line = arrowLoc.start.line - 1 &&
      first.loc.start.line ≤ loc.start.line
  | _, _ => false

theorem Program.exists_of_endsInFunction (hprogram : program.endsInFunction) :
    ∃ first loc keyword declaratorLoc id arrowLoc params body comment,
      program.nodes [] = [.statement first] ++ .statement (.declaration loc keyword
        [.mk declaratorLoc (.identifier id) (some (.arrow arrowLoc params body))]) :: [] ∧
      program.header = none ∧ comment ∈ program.comments ∧ comment.isBlock = false ∧
      comment.loc.stop.line = arrowLoc.start.line - 1 := by
  unfold endsInFunction at hprogram
  split at hprogram
  case h_1 first loc keyword declaratorLoc id arrowLoc params body comment hbody hcomments =>
    simp only [Bool.and_eq_true, Bool.not_eq_true', decide_eq_true_eq] at hprogram
    obtain ⟨⟨hline, habove⟩, horder⟩ := hprogram
    refine ⟨first, loc, keyword, declaratorLoc, id, arrowLoc, params, body, comment, ?_, ?_,
      by simp [hcomments], hline, habove⟩
    · rw [nodes, hbody]
      apply mergeSort_of_pairwise
      simp only [map_nil, nil_append, map_cons, pairwise_pair]
      exact decide_eq_true horder
    · simp [header, hcomments, hline]
  case h_2 => cases hprogram

theorem parseScript_ascribes_iff_leads_semicolon :
    ∃ program before after loc declaratorLoc arrowLoc keyword id params body comment,
      Program.parse "1;\n//f::a->a\nlet f=x=>x".toList = .ok program ∧
      program.declarations "1;\n//f::a->a\nlet f=x=>x".toList = .ok [] ∧
      program.nodes [] = before ++ .statement (.declaration loc keyword
        [.mk declaratorLoc (.identifier id) (some (.arrow arrowLoc params body))]) :: after ∧
      comment ∈ program.comments ∧ comment.isBlock = false ∧
      comment.loc.stop.line = arrowLoc.start.line - 1 ∧
      ((∃ fault, parseScript "1;\n//f::a->a\nlet f=x=>x".toList = .error fault ∧
        fault.IsSyntactic) ∨
      ∃ commands param inner ascribed,
        parseScript "1;\n//f::a->a\nlet f=x=>x".toList = .ok commands ∧
        commands[before.length]? = some (.bind id.name
          (.defined (.function param inner ascribed arrowLoc) none id.loc none false) loc) ∧
        ((comment.Leads program.comments program.header (before.getLast?.map (·.loc.stop))
            loc.start ∧
          ∃ written type, Signature.ofComment "1;\n//f::a->a\nlet f=x=>x".toList comment id.name =
              .ok written ∧
            written.toTy = .ok type ∧ ascribed = some type) ∨
        (¬comment.Leads program.comments program.header (before.getLast?.map (·.loc.stop))
            loc.start ∧ ascribed = none))) := by
  have hpasses : Except.passes (Program.parse "1;\n//f::a->a\nlet f=x=>x".toList)
      Program.endsInFunction = true := by decide +kernel
  obtain ⟨program, hprogram, hends⟩ := Except.exists_of_passes hpasses
  obtain ⟨first, loc, keyword, declaratorLoc, id, arrowLoc, params, body, comment, hnodes, hheader,
    hcomment, hline, habove⟩ := Program.exists_of_endsInFunction hends
  have hdeclarations : program.declarations "1;\n//f::a->a\nlet f=x=>x".toList = .ok [] := by
    rw [Program.declarations, hheader]
    rfl
  exact ⟨program, [.statement first], [], loc, declaratorLoc, arrowLoc, keyword, id, params, body,
    comment, hprogram, hdeclarations, hnodes, hcomment, hline, habove,
    parseScript_ascribes_iff_leads hprogram hdeclarations hnodes hcomment hline habove⟩

/-- The type written above the function that a command defines. -/
def Command.ascription? : Command → Option Ty
  | .bind _ (.defined (.function _ _ ascribed _) ..) _ => ascribed
  | _ => none

/-- A script without type declarations whose statements start on later and later lines. -/
theorem parseScript_of_ordered {text : List Char} (hprogram : parse text = .ok program)
    (hheader : program.header = none)
    (hordered : program.body.Pairwise fun a b => a.loc.start.line ≤ b.loc.start.line)
    (hrun : TopLevel.toCommands text program.comments none false none (program.body.map
      TopLevel.statement) = .ok commands) : parseScript text = .ok commands := by
  have hnodes : program.nodes [] = program.body.map TopLevel.statement := by
    apply mergeSort_of_pairwise
    rw [map_nil, nil_append, pairwise_map]
    exact hordered.imp decide_eq_true
  apply parseScript_eq_ok.mpr
  refine ⟨program, [], hprogram, by rw [declarations, hheader]; rfl, ?_⟩
  rw [hnodes, hheader]
  exact hrun

/-- Whether the commands of such a script pass a test. -/
def passesInOrder (text : List Char) (test : List Command → Bool) : Bool :=
  Except.passes (parse text) fun program =>
    program.header.isNone &&
    decide (program.body.Pairwise fun a b => a.loc.start.line ≤ b.loc.start.line) &&
    Except.passes (TopLevel.toCommands text program.comments none false none
      (program.body.map TopLevel.statement)) test

theorem exists_of_passesInOrder {text : List Char} {test : List Command → Bool}
    (hpasses : passesInOrder text test) :
    ∃ commands, parseScript text = .ok commands ∧ test commands := by
  obtain ⟨program, hprogram, hpasses⟩ := Except.exists_of_passes hpasses
  simp only [Bool.and_eq_true, Option.isNone_iff_eq_none, decide_eq_true_eq] at hpasses
  obtain ⟨⟨hheader, hordered⟩, hcommands⟩ := hpasses
  obtain ⟨commands, hcommands, htest⟩ := Except.exists_of_passes hcommands
  exact ⟨commands, parseScript_of_ordered hprogram hheader hordered hcommands, htest⟩

/-- The same line comment above the same function is heeded or not, depending on a semicolon
on the line before it. -/
theorem parseScript_ascription_needs_semicolon :
    (∃ commands, parseScript "1;\n//f::a->a\nlet f=x=>x".toList = .ok commands ∧
      (commands.map fun command => command.ascription?.map Ty.toText) = [none, some "a -> a"]) ∧
    ∃ commands, parseScript "1\n//f::a->a\nlet f=x=>x".toList = .ok commands ∧
      (commands.map fun command => command.ascription?.map Ty.toText) = [none, none] := by
  constructor
  · have hpasses : passesInOrder "1;\n//f::a->a\nlet f=x=>x".toList (fun commands =>
        (commands.map fun command => command.ascription?.map Ty.toText) =
          [none, some "a -> a"]) = true := by decide +kernel
    obtain ⟨commands, hrun, htest⟩ := exists_of_passesInOrder hpasses
    exact ⟨commands, hrun, of_decide_eq_true htest⟩
  · have hpasses : passesInOrder "1\n//f::a->a\nlet f=x=>x".toList (fun commands =>
        (commands.map fun command => command.ascription?.map Ty.toText) = [none, none]) = true := by
      decide +kernel
    obtain ⟨commands, hrun, htest⟩ := exists_of_passesInOrder hpasses
    exact ⟨commands, hrun, of_decide_eq_true htest⟩

end RowScript
