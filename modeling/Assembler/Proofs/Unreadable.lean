import Assembler.Proofs.Folding
import Assembler.Proofs.Passage
/-!
Lines that cannot be read as statements.

A line that is no statement is reported, and that is all: with blank lines in its place a source is assembled to the
same, except for the report (`Program.assemble_blank`). The lines of the text that make the line are those from its
number to the next (`Source.exists_physical`).
-/

namespace Assembler

namespace Source

/-! ## 1. The lines of a text that make a line of a source -/

variable {lines : List Text}

/-- What a line goes on with ends before the last line of the text, or with it. -/
theorem continuation_cases (lines : List Text) :
    (continuation lines).2 = lines.length ∨
      ∃ line ∈ (lines.take (continuation lines).2).getLast?, isContinued line = false := by
  induction lines with
  | nil => exact .inl rfl
  | cons line rest ih =>
    rw [continuation]
    by_cases hline : isContinued line = true
    · simp only [hline, if_true, List.length_cons, List.take_succ_cons]
      rcases ih with hall | ⟨last, hlast, hends⟩
      · exact .inl (congrArg (· + 1) hall)
      · refine .inr ⟨last, ?_, hends⟩
        rw [Option.mem_def] at hlast
        rw [Option.mem_def, List.getLast?_cons, hlast]
        rfl
    · simp only [hline, Bool.false_eq_true, if_false]
      refine .inr ⟨line, ?_, by simpa using hline⟩
      rfl

/-- What a line goes on with is in the lines that are counted for it. -/
theorem continuation_take (lines : List Text) :
    continuation (lines.take (continuation lines).2) = continuation lines := by
  induction lines with
  | nil => rfl
  | cons line rest ih =>
    by_cases hline : isContinued line = true
    · have hall : continuation (line :: rest) =
          (continuationPart line ++ (continuation rest).1, (continuation rest).2 + 1) := by
        rw [continuation, if_pos hline]
      rw [hall, List.take_succ_cons, continuation, if_pos hline, ih]
    · have hone : continuation (line :: rest) = (continuationPart line, 1) := by
        rw [continuation, if_neg hline]
      rw [hone, List.take_succ_cons, continuation, if_neg hline]

theorem continuation_le (lines : List Text) : (continuation lines).2 ≤ lines.length := by
  induction lines with
  | nil => exact Nat.le_refl _
  | cons line rest ih =>
    rw [continuation]
    split
    · exact Nat.succ_le_succ ih
    · exact Nat.succ_le_succ (Nat.zero_le _)

theorem joinLines_cons_of_isContinued {line : Text} (hline : isContinued line = true) (number : Nat)
    (rest : List Text) :
    joinLines number (line :: rest) = (number, firstPart line ++ (continuation rest).1) ::
      joinLines (number + 1 + (continuation rest).2) (rest.drop (continuation rest).2) := by
  rw [joinLines, if_pos hline]

/-- The first line of a source is made of some lines of the text, of which the last does not go on, or of all. -/
theorem exists_first {number : Nat} {x : Nat × Text} {rest : List (Nat × Text)}
    (h : joinLines number lines = x :: rest) :
    ∃ physical after, lines = physical ++ after ∧ x.1 = number ∧ joinLines number physical = [x] ∧
      (after = [] ∨ ∃ line ∈ physical.getLast?, isContinued line = false) ∧
      joinLines (number + physical.length) after = rest := by
  cases lines with
  | nil => rw [joinLines] at h; cases h
  | cons line others =>
    by_cases hline : isContinued line = true
    · rw [joinLines_cons_of_isContinued hline] at h
      obtain ⟨rfl, hrest⟩ := List.cons_eq_cons.mp h
      have hlength : (others.take (continuation others).2).length = (continuation others).2 :=
        List.length_take_of_le (continuation_le others)
      refine ⟨line :: others.take (continuation others).2, others.drop (continuation others).2, ?_, rfl, ?_, ?_, ?_⟩
      · rw [List.cons_append, List.take_append_drop]
      · rw [joinLines_cons_of_isContinued hline, continuation_take, List.drop_of_length_le (Nat.le_of_eq hlength),
          joinLines]
      · rcases continuation_cases others with hall | ⟨last, hmem, hends⟩
        · left
          rw [hall, List.drop_length]
        · refine .inr ⟨last, ?_, hends⟩
          rw [Option.mem_def] at hmem
          rw [Option.mem_def, List.getLast?_cons, hmem]
          rfl
      · rwa [List.length_cons, hlength, Nat.add_comm _ 1, ← Nat.add_assoc]
    · rw [joinLines, if_neg hline] at h
      obtain ⟨rfl, hrest⟩ := List.cons_eq_cons.mp h
      refine ⟨[line], others, rfl, rfl, ?_, .inr ⟨line, rfl, Bool.eq_false_iff.mpr hline⟩, hrest⟩
      rw [joinLines, if_neg hline, joinLines]

/-- Every line of a source is made of some lines of the text, as many as there are up to the next one. The lines in
front of them make the lines of the source in front of it. -/
theorem exists_physical {number : Nat} {before after : List (Nat × Text)} {x : Nat × Text}
    (h : joinLines number lines = before ++ x :: after) :
    ∃ front physical rest, lines = front ++ (physical ++ rest) ∧ x.1 = number + front.length ∧
      (∀ line ∈ front.getLast?, isContinued line = false) ∧ joinLines number front = before ∧
      joinLines (number + front.length + physical.length) rest = after := by
  induction before generalizing number lines with
  | nil =>
    obtain ⟨physical, rest, rfl, hx, -, -, hrest⟩ := exists_first h
    exact ⟨[], physical, rest, rfl, hx, nofun, by rw [joinLines], hrest⟩
  | cons y before ih =>
    obtain ⟨first, others, rfl, -, hfirst, hends, hothers⟩ := exists_first h
    have hne : others ≠ [] := by
      rintro rfl
      rw [joinLines] at hothers
      cases List.append_ne_nil_of_right_ne_nil _ (List.cons_ne_nil _ _) hothers.symm
    obtain ⟨last, hlast, hlastEnds⟩ := hends.resolve_left hne
    have hfirstEnds : ∀ line ∈ first.getLast?, isContinued line = false := fun line hline => by
      rwa [Option.mem_unique hline hlast]
    obtain ⟨front, physical, rest, rfl, hx, hfront, hbefore, hafter⟩ := ih hothers
    refine ⟨first ++ front, physical, rest, by rw [List.append_assoc], ?_, ?_, ?_, ?_⟩
    · rw [hx, List.length_append, Nat.add_assoc]
    · intro line hline
      rw [List.getLast?_append] at hline
      cases hback : front.getLast? with
      | none => rw [hback, Option.none_or] at hline; exact hfirstEnds line hline
      | some final => rw [hback, Option.some_or] at hline; exact hfront line (hback.trans hline)
    · rw [joinLines_append hfirstEnds, hfirst, hbefore]
      rfl
    · rwa [List.length_append, ← Nat.add_assoc number]

/-- The number of the next line of a source, when those given are left, or of the one behind its last line. -/
def nextNumber (source : Text) (after : List (Nat × Line)) : Nat :=
  (after.head?.map Prod.fst).getD ((Text.lines source).length + 1)

/-- Whether a line of a text has nothing in it, and nothing that says it goes on. -/
def IsEmptyLine (line : Text) : Prop := line.all Text.isBlank ∧ isContinued line = false

instance (line : Text) : Decidable (IsEmptyLine line) := inferInstanceAs (Decidable (_ ∧ _))

/-- Empty lines are lines by themselves. -/
theorem isIdle_of_isEmptyLine (h : ∀ line ∈ lines, IsEmptyLine line) (number : Nat) :
    ∀ x ∈ joinLines number lines, (Line.ofText x.2).isIdle := by
  intro x hx
  have hmem := List.mem_map_of_mem (f := Prod.snd) hx
  rw [joinLines_of_not_isContinued (fun line hline => (h line hline).2)] at hmem
  unfold Line.ofText
  split
  · rfl
  · rw [if_pos (h x.2 hmem).1]
    rfl

/-- With empty lines for those of one of its lines, a source has the same lines in front of them and behind. -/
theorem exists_parse_of_empty {source source' : Text} {before after : List (Nat × Line)} {number : Nat} {line : Line}
    {empty : List Text} (h : parse source = before ++ (number, line) :: after)
    (hnext : number + empty.length = nextNumber source after) (hempty : ∀ line ∈ empty, IsEmptyLine line)
    (hsource' : Text.lines source' = (Text.lines source).take (number - 1) ++
      (empty ++ (Text.lines source).drop (number - 1 + empty.length))) :
    ∃ idle, parse source' = before ++ (idle ++ after) ∧ ∀ x ∈ idle, x.2.isIdle := by
  obtain ⟨before, _, hjoined, rfl, hrest⟩ := List.map_eq_append_iff.mp h
  obtain ⟨x, after, rfl, hx, rfl⟩ := List.map_eq_cons_iff.mp hrest
  obtain ⟨front, physical, rest, hlines, hnumber, hfront, rfl, rfl⟩ := exists_physical hjoined
  obtain rfl : x.1 = number := congrArg Prod.fst hx
  -- The next line is the first of the rest, so the empty lines are as many as those that they stand for.
  have hcount : empty.length = physical.length := by
    have hafter : nextNumber source ((joinLines (1 + front.length + physical.length) rest).map
        fun x => (x.1, Line.ofText x.2)) = 1 + front.length + physical.length := by
      unfold nextNumber
      cases rest with
      | nil =>
        rw [joinLines, hlines, List.append_nil, List.length_append]
        change front.length + physical.length + 1 = _
        omega
      | cons line rest =>
        rw [joinLines]
        split <;> rfl
    rw [hafter] at hnext
    omega
  have hends : ∀ line ∈ empty.getLast?, isContinued line = false := fun line hline =>
    (hempty line (List.mem_of_getLast? hline)).2
  have hsplit : Text.lines source' = front ++ (empty ++ rest) := by
    rw [hsource', hlines, hcount, hnumber, Nat.add_sub_cancel_left, List.take_left, ← List.drop_drop, List.drop_left,
      List.drop_left]
  refine ⟨(joinLines (1 + front.length) empty).map fun x => (x.1, Line.ofText x.2), ?_, ?_⟩
  · unfold parse
    rw [hsplit, joinLines_append hfront, joinLines_append hends, hcount, List.map_append, List.map_append]
  · intro y hy
    obtain ⟨z, hz, rfl⟩ := List.mem_map.mp hy
    exact isIdle_of_isEmptyLine hempty _ z hz

end Source

/-! ## 2. Assemblies with one report more -/

/-- Whether diagnostics are those of another list with one more in between, behind some that are given. -/
def Erases (earlier : List Diagnostic) (erased : Diagnostic) (l m : List Diagnostic) : Prop :=
  ∃ later, l = earlier ++ erased :: later ∧ m = earlier ++ later

/-- Without a limit they stay so with one more at the end. -/
theorem Erases.log {settings : Settings} (hunlimited : settings.maxDiagnostics = 0) {earlier : List Diagnostic}
    {erased : Diagnostic} {l m : List Diagnostic} (d : Diagnostic) (h : Erases earlier erased l m) :
    Erases earlier erased (settings.log l d) (settings.log m (d.mapLocation id)) := by
  obtain ⟨later, rfl, rfl⟩ := h
  have hall (l : List Diagnostic) : settings.log l d = l ++ [d] := if_neg fun hfull => by omega
  exact ⟨later ++ [d], by rw [hall, List.append_assoc, List.cons_append], (hall _).trans (List.append_assoc _ _ _)⟩

/-- An assembly without a limit on its diagnostics beside one that has the same but for one of them. -/
def Comparison.erased {settings : Settings} (hunlimited : settings.maxDiagnostics = 0) (earlier : List Diagnostic)
    (erased : Diagnostic) : Comparison :=
  .under settings id Location.id_start (fun _ => False) (Erases earlier erased) fun d h => h.log hunlimited d

namespace Program

/-- A line that cannot be read as a statement has no effect. A source without a limit on its diagnostics may have
empty lines for such a line: it is assembled to the same symbols, the same layout and the same diagnostics, except for
the report on that line. -/
theorem assemble_blank {settings : Settings} (hunlimited : settings.maxDiagnostics = 0) {source source' : Text}
    {before after : List (Nat × Source.Line)} {number : Nat} {fields : Source.Fields} {e : ReadError}
    {empty : List Text} (hsource : Source.parse source = before ++ (number, .instruction fields) :: after)
    (hstatement : ((start settings).pass before).reception fields.opcode = .statement)
    (herror : (Statement.read fields { line := number - 1 }).result = .error e)
    (hnext : number + empty.length = Source.nextNumber source after)
    (hempty : ∀ line ∈ empty, Source.IsEmptyLine line)
    (hsource' : Text.lines source' = (Text.lines source).take (number - 1) ++
      (empty ++ (Text.lines source).drop (number - 1 + empty.length))) :
    let s := (assemble settings source).assembly
    let t := (assemble settings source').assembly
    t.symbols = s.symbols ∧ t.layout = s.layout ∧
      ∃ earlier later report, s.diagnostics = earlier ++ report :: later ∧ t.diagnostics = earlier ++ later ∧
        report = unreadable e { line := number - 1 } ∧ report.code = "E016" ∧
        earlier = ((start settings).pass before).session.assembly.diagnostics := by
  intro s t
  obtain ⟨idle, hparse', hidle⟩ := Source.exists_parse_of_empty hsource hnext hempty hsource'
  generalize hp : (start settings).pass before = p at *
  generalize hd : unreadable e { line := number - 1 } = report
  let c := Comparison.erased hunlimited p.session.assembly.diagnostics report
  have hsame : Relates (.same settings fun _ => False) p p := by
    rw [← hp]
    exact relates_same settings fun _ _ _ _ _ _ _ _ _ _ _ hn => hn
  -- Reading the line sets the two assemblies apart by its report, and the lines behind it keep it so.
  have hline : Relates c (p.line number (.instruction fields)) p := by
    change Relates c (p.instruction fields _) p
    rw [instruction_eq, hstatement]
    obtain ⟨hassembly, hdepth, hproto⟩ := process_of_error (p := p) herror
    refine ⟨?_, hdepth.symm, hproto.symm⟩
    rw [hassembly, hd, Assembly.addDiagnostic_eq]
    refine { hsame.assembly with logs := ⟨[], ?_, (List.append_nil _).symm⟩ }
    exact if_neg fun hfull => by
      have hzero : p.session.assembly.settings.maxDiagnostics = 0 := by rw [hsame.assembly.first]; exact hunlimited
      omega
  have hpass : Relates c ((start settings).pass (Source.parse source))
      ((start settings).pass (Source.parse source')) := by
    rw [hsource, hparse', pass_append, pass_append, pass_append, hp, pass_of_isIdle hidle]
    have hafter := hline.pass id (fun x (_ : x ∈ after) => rfl) fun _ _ _ _ _ _ _ _ _ _ _ hn => hn
    rwa [Prod.map_id, List.map_id] at hafter
  have hfinish := hpass.assembly.finish
  obtain ⟨later, hs, ht⟩ := hfinish.logs
  refine ⟨?_, hfinish.layout, _, later, report, hs, ht, rfl, ?_, rfl⟩
  · exact hfinish.symbols.trans (SymbolTable.mapLocation_id _)
  · rw [← hd]
    rfl

/-! ### A name field that is no name, in a line that goes on -/

namespace Misnamed

def first : Text := "A CSECT".toList

def second : Text := "1X LR 1,".toList ++ List.replicate 63 ' ' ++ ['X']

def third : Text := Source.margin ++ "2".toList

def last : Text := "B LR 3,4".toList

def source : Text := ['\n'].intercalate [first, second, third, last]

def withoutLine : Text := ['\n'].intercalate [first, [], "  ".toList, last]

def fields : Source.Fields := ⟨some "1X".toList, "LR".toList, "1,2".toList, []⟩

theorem parse_source : Source.parse source =
    [(1, .ofText first)] ++ (2, .instruction fields) :: [(4, .ofText last)] := by
  have hlines : Text.lines source = [first, second, third, last] := by decide
  have hsecond : Source.continuation [third, last] = ("2".toList, 1) := by decide
  have hjoined : Source.joinLines 1 [first, second, third, last] =
      [(1, first), (2, "1X LR 1,2".toList), (4, last)] := by
    rw [Source.joinLines, if_neg (by decide), Source.joinLines_cons_of_isContinued (by decide), hsecond,
      List.drop_one, List.tail_cons, Source.joinLines, if_neg (by decide), Source.joinLines]
    rfl
  unfold Source.parse
  rw [hlines, hjoined]
  rfl

end Misnamed

theorem assemble_blank_misnamed :
    let s := (assemble { maxDiagnostics := 0 } Misnamed.source).assembly
    let t := (assemble { maxDiagnostics := 0 } Misnamed.withoutLine).assembly
    t.symbols = s.symbols ∧ t.layout = s.layout ∧
      ∃ earlier later report, s.diagnostics = earlier ++ report :: later ∧ t.diagnostics = earlier ++ later := by
  obtain ⟨hsymbols, hlayout, earlier, later, report, hs, ht, -⟩ :=
    @assemble_blank { maxDiagnostics := 0 } rfl Misnamed.source Misnamed.withoutLine _ _ 2 Misnamed.fields
      (.invalidLabel "1X".toList) [[], "  ".toList] Misnamed.parse_source rfl rfl (by decide) (by decide) (by decide)
  exact ⟨hsymbols, hlayout, earlier, later, report, hs, ht⟩

end Program

end Assembler
