import Assembler.Proofs.Folding
import Assembler.Proofs.Passage
/-!
Macro definitions in a source.

A macro definition starts with MACRO and a prototype and ends with a MEND of its own, and further definitions in it do
so too, to any depth (`MacroBlock`). What is between does nothing. So the lines of a definition make nothing but a
macro of the name of their prototype (`Program.pass_block`), and a source without them is assembled to the same
symbols, layout and diagnostics unless it asks for `O'` of that name (`Program.assemble_insert_block`).
-/

namespace Assembler

namespace Source.Line

/-! ## 1. Lines of a macro definition -/

/-- What the operation code of an instruction line stands for, if it is an assembler instruction. -/
def role? : Line → Option DirectiveRole
  | instruction fields => Directive.roleOf? (.ofText fields.opcode)
  | _ => none

end Source.Line

/-- The lines between the prototype of a macro and its MEND. Every macro that starts there has a prototype and ends
there. -/
inductive MacroBody : List Source.Line → Prop
  | nil : MacroBody []
  | line {line : Source.Line} {rest : List Source.Line} (hstart : line.role? ≠ some .macroStart)
    (hend : line.role? ≠ some .macroEnd) (h : MacroBody rest) : MacroBody (line :: rest)
  | nested {first last : Source.Line} {idle body rest : List Source.Line} {prototype : Source.Fields}
    (hstart : first.role? = some .macroStart) (hidle : ∀ line ∈ idle, line.isIdle) (hbody : MacroBody body)
    (hend : last.role? = some .macroEnd) (h : MacroBody rest) :
    MacroBody (first :: (idle ++ .instruction prototype :: (body ++ last :: rest)))

/-- The lines of a macro definition with a given prototype, comments and blank lines among them. -/
inductive MacroBlock (prototype : Source.Fields) : List Source.Line → Prop
  | mk {first last : Source.Line} {lead idle body trail : List Source.Line} (hlead : ∀ line ∈ lead, line.isIdle)
    (hstart : first.role? = some .macroStart) (hidle : ∀ line ∈ idle, line.isIdle) (hbody : MacroBody body)
    (hend : last.role? = some .macroEnd) (htrail : ∀ line ∈ trail, line.isIdle) :
    MacroBlock prototype (lead ++ first :: (idle ++ .instruction prototype :: (body ++ last :: trail)))

namespace Program

/-! ## 2. Passing over a macro definition -/

variable {p : Program} {line : Source.Line} {lines : List Source.Line}

/-- Lines that all count as the first of their source. -/
def unnumbered (lines : List Source.Line) : List (Nat × Source.Line) := lines.map (1, ·)

theorem pass_unnumbered_cons (p : Program) (line : Source.Line) (rest : List Source.Line) :
    p.pass (unnumbered (line :: rest)) = (p.line 1 line).pass (unnumbered rest) := rfl

theorem pass_unnumbered_append (p : Program) (before after : List Source.Line) :
    p.pass (unnumbered (before ++ after)) = (p.pass (unnumbered before)).pass (unnumbered after) := by
  rw [unnumbered, List.map_append]
  exact p.pass_append _ _

theorem pass_idle (h : ∀ line ∈ lines, line.isIdle) : p.pass (unnumbered lines) = p := by
  refine pass_of_isIdle fun x hx => ?_
  obtain ⟨line, hline, rfl⟩ := List.mem_map.mp hx
  exact h line hline

theorem line_macroStart (h : line.role? = some .macroStart) (hproto : p.atPrototype = false) (number : Nat) :
    p.line number line = { p with depth := p.depth + 1, atPrototype := true } := by
  cases line with
  | comment | blank => cases h
  | instruction fields =>
    change p.instruction fields _ = _
    unfold instruction
    rw [hproto, show Directive.roleOf? (.ofText fields.opcode) = some .macroStart from h]
    rfl

theorem line_macroEnd (h : line.role? = some .macroEnd) (hproto : p.atPrototype = false) (hdepth : 0 < p.depth)
    (number : Nat) : p.line number line = { p with depth := p.depth - 1 } := by
  cases line with
  | comment | blank => cases h
  | instruction fields =>
    change p.instruction fields _ = _
    unfold instruction
    rw [hproto, show Directive.roleOf? (.ofText fields.opcode) = some .macroEnd from h]
    exact if_neg (Nat.ne_of_gt hdepth)

/-- In a macro nothing is done but to look for its end. -/
theorem line_inside (hstart : line.role? ≠ some .macroStart) (hend : line.role? ≠ some .macroEnd)
    (hproto : p.atPrototype = false) (hdepth : 0 < p.depth) (number : Nat) : p.line number line = p := by
  cases line with
  | comment | blank => rfl
  | instruction fields =>
    change p.instruction fields _ = _
    unfold instruction
    rw [hproto, if_neg Bool.false_ne_true]
    split
    · exact absurd ‹_› hstart
    · exact absurd ‹_› hend
    · rfl
    · exact if_neg (Nat.ne_of_gt hdepth)

/-- A macro in a macro is passed over with the rest of it, and leaves nothing behind. The induction is on the nesting:
within a nested macro the depth is greater by one. -/
theorem pass_body (h : MacroBody lines) (hproto : p.atPrototype = false) (hdepth : 0 < p.depth) :
    p.pass (unnumbered lines) = p := by
  induction h generalizing p with
  | nil => rfl
  | line hstart hend h ih =>
    rw [pass_unnumbered_cons, line_inside hstart hend hproto hdepth]
    exact ih hproto hdepth
  | nested hstart hidle hbody hend h ihbody ih =>
    rename_i first last idle body rest prototype
    let inner : Program := { p with depth := p.depth + 1, atPrototype := false }
    have hprototype : Program.line { p with depth := p.depth + 1, atPrototype := true } 1 (.instruction prototype) =
        inner := by
      have hne : p.depth + 1 ≠ 1 := by omega
      change passPrototype _ _ = _
      unfold passPrototype
      rw [if_neg hne]
    have hback : { inner with depth := inner.depth - 1 } = p := by
      cases p
      subst hproto
      rfl
    have hlast : inner.line 1 last = p := (line_macroEnd hend rfl (Nat.succ_pos _) 1).trans hback
    rw [pass_unnumbered_cons, line_macroStart hstart hproto, pass_unnumbered_append, pass_idle hidle,
      pass_unnumbered_cons, hprototype, pass_unnumbered_append, ihbody rfl (Nat.succ_pos _), pass_unnumbered_cons,
      hlast]
    exact ih hproto hdepth

/-- A macro definition outside of macros defines its macro and does nothing else. -/
theorem pass_block {prototype : Source.Fields} (h : MacroBlock prototype lines) (hproto : p.atPrototype = false)
    (hdepth : p.depth = 0) :
    p.pass (unnumbered lines) = { p with session := p.session.defineMacro prototype.opcode .source } := by
  cases h with
  | mk hlead hstart hidle hbody hend htrail =>
    rename_i first last lead idle body trail
    let inner : Program :=
      { p with session := p.session.defineMacro prototype.opcode .source, depth := 1, atPrototype := false }
    have hprototype : Program.line { p with depth := p.depth + 1, atPrototype := true } 1 (.instruction prototype) =
        inner := by
      have hone : p.depth + 1 = 1 := by omega
      change passPrototype _ _ = _
      unfold passPrototype
      rw [if_pos hone]
      simp only [inner, hone]
    have hlast : inner.line 1 last =
        { p with session := p.session.defineMacro prototype.opcode .source } := by
      rw [line_macroEnd hend rfl (Nat.succ_pos 0) 1]
      simp only [inner, Nat.sub_self, hdepth, hproto]
    rw [pass_unnumbered_append, pass_idle hlead, pass_unnumbered_cons, line_macroStart hstart hproto,
      pass_unnumbered_append, pass_idle hidle, pass_unnumbered_cons, hprototype, pass_unnumbered_append,
      pass_body hbody rfl (Nat.succ_pos 0), pass_unnumbered_cons, hlast, pass_idle htrail]

end Program

/-! ## 3. Lines without numbers -/

/-- The same place in the first line. -/
def Location.unnumbered (l : Location) : Location := { l with line := 0 }

theorem Settings.log_map (settings : Settings) (g : Diagnostic → Diagnostic) (l : List Diagnostic) (d : Diagnostic) :
    settings.log (l.map g) (g d) = (settings.log l d).map g := by
  unfold log
  rw [List.length_map]
  split
  · rfl
  · rw [List.map_append, List.map_singleton]

theorem Location.unnumbered_start : unnumbered {} = {} := rfl

theorem Settings.log_unnumbered (settings : Settings) {l m : List Diagnostic} (d : Diagnostic)
    (h : m = l.map (Diagnostic.mapLocation Location.unnumbered)) :
    settings.log m (d.mapLocation Location.unnumbered) =
      (settings.log l d).map (Diagnostic.mapLocation Location.unnumbered) := by
  rw [h]
  exact settings.log_map _ l d

/-- An assembly beside the one that counts all lines as the first. -/
def Comparison.unnumbered (settings : Settings) : Comparison :=
  .under settings Location.unnumbered Location.unnumbered_start (fun _ => False)
    (fun l m => m = l.map (Diagnostic.mapLocation Location.unnumbered)) fun d h => settings.log_unnumbered d h

namespace Program

/-- A source whose lines all count as the first is assembled to the same, at the same places but for the line. -/
theorem relates_unnumbered (settings : Settings) (lines : List (Nat × Source.Line)) :
    Relates (.unnumbered settings) ((start settings).pass lines)
      ((start settings).pass (unnumbered (lines.map Prod.snd))) := by
  have hstart : Relates (.unnumbered settings) (start settings) (start settings) := .start rfl rfl rfl
  have hpass := hstart.pass (fun _ => 1) (fun x (_ : x ∈ lines) => rfl) fun _ _ _ _ _ _ _ _ _ _ _ hn => hn
  rwa [show lines.map (Prod.map (fun _ => 1) id) = unnumbered (lines.map Prod.snd) by
    rw [unnumbered, List.map_map]; rfl] at hpass

/-- The macro of a definition makes no difference where nothing asks for `O'` of its name. -/
theorem relates_pass_block {settings : Settings} {before block after : List Source.Line} {prototype : Source.Fields}
    (hblock : MacroBlock prototype block) (houtside : ((start settings).pass (unnumbered before)).depth = 0)
    (havoid : ∀ line ∈ before ++ after, line.Avoids (· = .ofText prototype.opcode)) :
    Relates (.same settings (· = .ofText prototype.opcode))
      ((start settings).pass (unnumbered (before ++ after)))
      ((start settings).pass (unnumbered (before ++ (block ++ after)))) := by
  have havoids (lines : List Source.Line) (hsub : lines ⊆ before ++ after) :
      ∀ x ∈ unnumbered lines, x.2.Avoids (· = .ofText prototype.opcode) := by
    intro x hx
    obtain ⟨line, hline, rfl⟩ := List.mem_map.mp hx
    exact havoid line (hsub hline)
  have hbefore := relates_same settings (havoids before (List.subset_append_left _ _))
  have hready : ((start settings).pass (unnumbered before)).Ready := (ready_start settings).pass _
  -- Nothing waits for the macro, so it is only entered.
  have hdefine := Assembly.defineMacro_of_idle (hbefore.assembly.unawaited _ rfl) hready.worklist .source
  have hmacro : Relates (.same settings (· = .ofText prototype.opcode)) ((start settings).pass (unnumbered before))
      (((start settings).pass (unnumbered before)).pass (unnumbered block)) := by
    rw [pass_block hblock (hready.atPrototype_eq houtside) houtside]
    refine ⟨?_, rfl, rfl⟩
    change Comparison.Relates _ _
      (((start settings).pass (unnumbered before)).session.assembly.defineMacro (.ofText prototype.opcode) .source)
    rw [hdefine]
    refine { hbefore.assembly with macros := fun n hn => ?_ }
    have hne : n ≠ .ofText prototype.opcode := hn
    rw [Std.ExtTreeMap.getElem?_insert, if_neg fun heq => hne (Std.LawfulEqOrd.eq_of_compare heq).symm]
  rw [pass_unnumbered_append, pass_unnumbered_append, pass_unnumbered_append]
  exact hmacro.pass_same (havoids after (List.subset_append_right _ _))

/-- A macro definition does not leak. A source may have one more of them between two of its lines, outside of other
macro definitions: unless it asks somewhere for `O'` of the name of the prototype, it is assembled to the same
symbols, the same layout and the same diagnostics, but for the numbers of the lines. -/
theorem assemble_insert_block (settings : Settings) {source source' : Text}
    {before after : List (Nat × Source.Line)} {block : List Source.Line} {prototype : Source.Fields}
    (hsource : Source.parse source = before ++ after)
    (hsource' : (Source.parse source').map Prod.snd = before.map Prod.snd ++ (block ++ after.map Prod.snd))
    (hblock : MacroBlock prototype block) (houtside : ((start settings).pass before).depth = 0)
    (havoid : ∀ x ∈ Source.parse source, x.2.Avoids (· = .ofText prototype.opcode)) :
    let s := (assemble settings source).assembly
    let t := (assemble settings source').assembly
    t.symbols.mapLocation Location.unnumbered = s.symbols.mapLocation Location.unnumbered ∧ t.layout = s.layout ∧
      t.diagnostics.map (Diagnostic.mapLocation Location.unnumbered) =
        s.diagnostics.map (Diagnostic.mapLocation Location.unnumbered) := by
  intro s t
  have hlines : (Source.parse source).map Prod.snd = before.map Prod.snd ++ after.map Prod.snd := by
    rw [hsource, List.map_append]
  have hdepth : ((start settings).pass (unnumbered (before.map Prod.snd))).depth = 0 :=
    (relates_unnumbered settings before).depth.trans houtside
  have havoids : ∀ line ∈ before.map Prod.snd ++ after.map Prod.snd,
      line.Avoids (· = .ofText prototype.opcode) := by
    intro line hline
    rw [← hlines] at hline
    obtain ⟨x, hx, rfl⟩ := List.mem_map.mp hline
    exact havoid x hx
  -- Both sources are compared to themselves without line numbers, and these to each other.
  have hs := (relates_unnumbered settings (Source.parse source)).assembly.finish
  have ht := (relates_unnumbered settings (Source.parse source')).assembly.finish
  have hst := (relates_pass_block hblock hdepth havoids).assembly.finish
  rw [hlines] at hs
  rw [hsource'] at ht
  refine ⟨?_, ?_, ?_⟩
  · exact ht.symbols.symm.trans (hst.symbols.trans ((SymbolTable.mapLocation_id _).trans hs.symbols))
  · exact ht.layout.symm.trans (hst.layout.trans hs.layout)
  · exact Eq.trans (Eq.symm ht.logs) (Eq.trans hst.logs hs.logs)

/-! ### A macro with another one in it -/

namespace Nested

def source : Text := "A CSECT\nB LR 1,2".toList

/-- The prototype of the inner macro looks like an end, and in the outer one there is a name that is taken. -/
def withBlock : Text :=
  "A CSECT\n MACRO\n NOTE &P\n MACRO\n* INNER\n MEND\n MEND\nA EQU 2\n MEND\nB LR 1,2".toList

/-- The line with a given number. -/
def line (n : Nat) : Source.Line := .ofText ((Text.lines withBlock).getD (n - 1) [])

def prototype (opcode operands : String) : Source.Fields := ⟨none, opcode.toList, operands.toList, []⟩

def body : List Source.Line := [line 4, line 5, .instruction (prototype "MEND" ""), line 7, line 8]

def block : List Source.Line := line 2 :: .instruction (prototype "NOTE" "&P") :: (body ++ [line 9])

theorem macroBody : MacroBody body :=
  @MacroBody.nested (line 4) (line 7) [line 5] [] [line 8] (prototype "MEND" "") (by decide) (by decide) .nil
    (by decide) (.line (by decide) (by decide) .nil)

theorem macroBlock : MacroBlock (prototype "NOTE" "&P") block :=
  @MacroBlock.mk (prototype "NOTE" "&P") (line 2) (line 9) [] [] body [] (by decide) (by decide) (by decide)
    macroBody (by decide) (by decide)

end Nested

theorem assemble_insert_block_nested :
    let s := (assemble {} Nested.source).assembly
    let t := (assemble {} Nested.withBlock).assembly
    t.symbols.mapLocation Location.unnumbered = s.symbols.mapLocation Location.unnumbered ∧ t.layout = s.layout ∧
      t.diagnostics.map (Diagnostic.mapLocation Location.unnumbered) =
        s.diagnostics.map (Diagnostic.mapLocation Location.unnumbered) := by
  have hsource : (Source.parse Nested.source).map Prod.snd = (Text.lines Nested.source).map Source.Line.ofText :=
    Source.parse_of_not_isContinued (by decide)
  have hwith : (Source.parse Nested.withBlock).map Prod.snd =
      (Text.lines Nested.withBlock).map Source.Line.ofText :=
    Source.parse_of_not_isContinued (by decide)
  have hfirst : (Statement.read ⟨some "A".toList, "CSECT".toList, [], []⟩ {}).result =
      .ok ⟨some (.ofString "A"), .ofString "CSECT", .sectionStart .executable, {}⟩ := by rfl
  have hsecond : (Statement.read ⟨some "B".toList, "LR".toList, "1,2".toList, []⟩ {}).result =
      .ok ⟨some (.ofString "B"), .ofString "LR", .instruction, {}⟩ := by rfl
  refine assemble_insert_block {} (List.take_append_drop 1 _).symm ?_ Nested.macroBlock ?_ ?_
  · rw [List.map_take, List.map_drop, hsource, hwith]
    decide
  · rw [← (relates_unnumbered {} _).depth, List.map_take, hsource]
    rfl
  · intro x hx
    have hmem := List.mem_map_of_mem (f := Prod.snd) hx
    rw [hsource] at hmem
    rcases List.mem_cons.mp hmem with h | h
    · rw [h]
      exact Source.Line.avoids_of_read hfirst (List.forall_mem_nil _)
    · rw [List.mem_singleton.mp h]
      exact Source.Line.avoids_of_read hsecond (List.forall_mem_nil _)

end Program

end Assembler
