import Assembler.Proofs.Comparison
/-!
The limit on diagnostics.

Nothing that an assembly does depends on the diagnostics it has already. So a limit does not change what a program
means: with a limit of `n` an assembly is the one without a limit, of whose diagnostics the first `n` are kept
(`Truncated`). Every function of an assembly keeps that relation (`Comparison.Relates`), and so does a session
(`truncated_performAll`).
-/

namespace Assembler

namespace Assembly

/-! ## 1. Two assemblies with different limits -/

/-- The assembly with a limit on its diagnostics, of which the first ones are left. -/
def limit (n : Nat) (s : Assembly) : Assembly :=
  { s with settings := { s.settings with maxDiagnostics := n }, diagnostics := s.diagnostics.take n }

/-- Whether `s` has no limit on its diagnostics and `t` is the same with a limit of `n`. -/
structure Truncated (n : Nat) (s t : Assembly) : Prop where
  unlimited : s.settings.maxDiagnostics = 0
  positive : 0 < n
  eq_limit : t = s.limit n

end Assembly

/-- With one more diagnostic, too, the first `n` are what a limit of `n` leaves. -/
theorem Settings.log_take {settings settings' : Settings} (hunlimited : settings.maxDiagnostics = 0)
    (hlimit : 0 < settings'.maxDiagnostics) (l : List Diagnostic) (d : Diagnostic) :
    settings'.log (l.take settings'.maxDiagnostics) d = (settings.log l d).take settings'.maxDiagnostics := by
  generalize hn : settings'.maxDiagnostics = n
  have hall : settings.log l d = l ++ [d] := if_neg fun hfull => by omega
  have hlength : (l.take n).length = min n l.length := List.length_take
  rw [hall]
  unfold Settings.log
  by_cases hfull : n ≤ l.length
  · rw [if_pos (by omega), List.take_append_of_le_length hfull]
  · rw [if_neg (by omega), List.take_of_length_le (by omega),
      List.take_of_length_le (by rw [List.length_append, List.length_singleton]; omega)]

/-- An assembly without a limit on its diagnostics beside one with a limit. -/
def Comparison.limited (settings : Settings) {n : Nat} (hn : 0 < n) : Comparison where
  place := id
  place_start := Location.id_start
  apart _ := False
  first := { settings with maxDiagnostics := 0 }
  second := { settings with maxDiagnostics := n }
  maxSweeps := rfl
  logs l m := m = l.take n
  logs_log := by
    rintro l _ d rfl
    exact @Settings.log_take { settings with maxDiagnostics := 0 } { settings with maxDiagnostics := n } rfl hn l d

namespace Assembly

variable {n : Nat} {s t : Assembly}

theorem Truncated.relates (h : Truncated n s t) : (Comparison.limited s.settings h.positive).Relates s t := by
  obtain ⟨hunlimited, hpos, rfl⟩ := h
  have hfirst : s.settings = { s.settings with maxDiagnostics := 0 } := by rw [← hunlimited]
  exact
    { first := hfirst, second := rfl, logs := rfl, symbols := (SymbolTable.mapLocation_id _).symm, layout := rfl
      pendings := (PendingTable.map_id _).symm, variableValues := rfl, macros := fun _ _ => rfl, worklist := rfl
      stalled := rfl, finished := rfl, reported := rfl, avoids := fun _ _ _ _ _ _ _ hn => hn
      unawaited := fun _ hn => hn.elim }

end Assembly

theorem Comparison.Relates.truncated {settings : Settings} {n : Nat} {hn : 0 < n} {s t : Assembly}
    (h : (limited settings hn).Relates s t) : s.Truncated n t := by
  have hmacros : t.macros = s.macros := Std.ExtTreeMap.ext_getElem? fun name => h.macros name id
  have hsettings : t.settings = { s.settings with maxDiagnostics := n } := by
    rw [h.second, h.first]
    rfl
  have hsymbols : t.symbols = s.symbols := h.symbols.trans (SymbolTable.mapLocation_id _)
  have hpendings : t.pendings = s.pendings := h.pendings.trans (PendingTable.map_id _)
  have hlogs : t.diagnostics = s.diagnostics.take n := h.logs
  refine ⟨congrArg Settings.maxDiagnostics h.first, hn, ?_⟩
  cases t
  simp only at *
  unfold Assembly.limit
  simp only [Assembly.mk.injEq]
  exact ⟨hsettings, hsymbols, h.layout, hpendings, h.variableValues, hmacros, hlogs, h.worklist, h.stalled,
    h.finished, h.reported⟩

namespace Assembly.Truncated

variable {n : Nat} {s t : Assembly} (h : Truncated n s t)
include h

theorem symbols_eq : t.symbols = s.symbols := by rw [h.eq_limit]; rfl

theorem layout_eq : t.layout = s.layout := by rw [h.eq_limit]; rfl

theorem pendings_eq : t.pendings = s.pendings := by rw [h.eq_limit]; rfl

theorem diagnostics_eq : t.diagnostics = s.diagnostics.take n := by rw [h.eq_limit]; rfl

end Assembly.Truncated

/-! ## 2. Sessions -/

namespace Session

variable {n : Nat} {s t : Session}

theorem truncated_perform (h : s.assembly.Truncated n t.assembly) (c : Command) :
    (s.perform c).assembly.Truncated n (t.perform c).assembly := by
  cases c with
  | process st => exact (h.relates.process fun _ _ _ _ hn => hn).truncated
  | defineMacro name origin => exact (h.relates.defineMacro _ origin).truncated
  | defineVariable name value => exact (h.relates.defineVariable _ value).truncated
  | requestAttribute => exact h
  | requestVariableAttribute => exact h
  | finish => exact h.relates.finish.truncated

theorem truncated_performAll (h : s.assembly.Truncated n t.assembly) (commands : List Command) :
    (s.performAll commands).assembly.Truncated n (t.performAll commands).assembly := by
  induction commands generalizing s t with
  | nil => exact h
  | cons c rest ih => exact ih (truncated_perform h c)

/-- A limit cuts the diagnostics off and changes nothing else. As this holds for any commands, it holds after each
of a list of commands. -/
theorem diagnostics_of_limit (settings : Settings) {n : Nat} (hn : 0 < n) (commands : List Command) :
    let s := ((new { settings with maxDiagnostics := 0 }).performAll commands).assembly
    let t := ((new { settings with maxDiagnostics := n }).performAll commands).assembly
    t.symbols = s.symbols ∧ t.layout = s.layout ∧ t.layout.spaces = s.layout.spaces ∧
      t.pendings = s.pendings ∧ t.pendings.size = s.pendings.size ∧
      t.diagnostics = s.diagnostics.take n := by
  intro s t
  have hstart : (Assembly.new { settings with maxDiagnostics := 0 }).Truncated n
      (.new { settings with maxDiagnostics := n }) := ⟨rfl, hn, by simp [Assembly.limit, Assembly.new]⟩
  have h : s.Truncated n t := truncated_performAll (s := new _) (t := new _) hstart commands
  exact ⟨h.symbols_eq, h.layout_eq, by rw [h.layout_eq], h.pendings_eq, by rw [h.pendings_eq],
    h.diagnostics_eq⟩

/-! ### Two faults of which one is kept -/

namespace Unnamed

/-- EQU without a name field is a fault. -/
def statement : Statement := ⟨none, .ofString "EQU", .equ none none none, {}⟩

def commands : List Command := [.process statement, .process statement]

end Unnamed

theorem diagnostics_of_limit_unnamed :
    ((new { maxDiagnostics := 1 }).performAll Unnamed.commands).assembly.diagnostics.length = 1 ∧
      ((new { maxDiagnostics := 0 }).performAll Unnamed.commands).assembly.diagnostics.length = 2 := by
  have htwo : ((new { maxDiagnostics := 0 }).performAll Unnamed.commands).assembly.diagnostics.length = 2 := rfl
  have hcut := (diagnostics_of_limit {} (n := 1) (by decide) Unnamed.commands).2.2.2.2.2
  refine ⟨?_, htwo⟩
  rw [hcut, List.length_take, htwo]
  rfl

end Session

end Assembler
