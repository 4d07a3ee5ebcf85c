import Assembler.Proofs.Stage
/-!
The places of the counters of a section.

When the counters are placed, the candidates of a counter cover all places that it has had. So the counter
after it begins behind all of them, on the first boundary that is not below the section
(`Session.apart_of_finish`).
-/

namespace Assembler

/-! ## 1. Beginnings -/

namespace Address

variable {a : Spaces} {k : SpaceId} {n : Int32}

/-- What begins with a space that has a length begins that many bytes behind the start of the section. -/
theorem normalize_start_addSpace (ha : a.Acyclic) (i : SectionId) (hk : a.length? k = some ⟨n, []⟩) :
    ((start i).addSpace k 1).normalize a = { start i with offset := n } := by
  have hbytes : ∀ τ, a.Fits τ → ((start i).addSpace k 1).bytes τ = n := fun τ hτ => by
    rw [bytes_addSpace, bytes_start, Int32.zero_add]
    exact (hτ k _ hk).trans (Int32.add_zero _)
  have hnil : (((start i).addSpace k 1).normalize a).spaces = [] := spaces_normalize_eq_nil ha hbytes
  obtain ⟨τ, hτ, -⟩ := Spaces.exists_fits ha fun _ => 0
  have hoffset : (((start i).addSpace k 1).normalize a).offset = n := by
    have hsame := (bytes_normalize hτ ((start i).addSpace k 1)).trans (hbytes τ hτ)
    rw [bytes, hnil] at hsame
    exact (Int32.add_zero _).symm.trans hsame
  calc ((start i).addSpace k 1).normalize a
      = { start i with
          offset := (((start i).addSpace k 1).normalize a).offset
          spaces := (((start i).addSpace k 1).normalize a).spaces } := rfl
    _ = { start i with offset := n } := by
        rw [hoffset, hnil]
        rfl

end Address

/-- A number rounded up is the exact one if that fits. -/
theorem Alignment.toInt_add_padding (a : Alignment) {n : Int32} (hfit : FitsInt32 (n.toInt + a.gap n.toInt)) :
    (n + a.padding n.toInt).toInt = n.toInt + a.gap n.toInt := by
  calc (n + a.padding n.toInt).toInt = (Int32.ofInt (n.toInt + a.gap n.toInt)).toInt := by
        rw [Int32.ofInt_add, Int32.ofInt_toInt, padding]
    _ = n.toInt + a.gap n.toInt := Int32.toInt_ofInt_of_le hfit.1 hfit.2

/-- A number rounded up to a boundary lies less than the boundary above it, unless that exceeds 32 bits. -/
theorem Alignment.Dyadic.toInt_add_padding {a : Alignment} (h : a.Dyadic) {n : Int32} (hn : 0 ≤ n.toInt)
    (hfit : n.toInt + a.boundary ≤ 2 ^ 31) :
    (n + a.padding n.toInt).toInt = n.toInt + (a.padding n.toInt).toInt := by
  have hnonneg := a.gap_nonneg n.toInt
  have hlt := a.gap_lt n.toInt
  have hpos := h.pos
  rw [h.toInt_padding]
  exact a.toInt_add_padding ⟨by omega, by omega⟩

namespace Assembly

variable {s : Assembly} {τ : SpaceId → Int32} {places : List Address}

/-- A counter begins on the first boundary that is neither below the section nor below any of the places that
are covered by the counter before it. -/
theorem start_apart (hs : s.Ready) (hf : s.finished = false) (hclean : s.finish.diagnostics = [])
    (hdyadic : s.layout.counterAlignment.Dyadic) (hτ : s.finish.layout.spaces.Fits τ) {c : Counter}
    (hc : Covers τ places (some c)) (hfit : Address.WithinRange τ places)
    (hround : ∀ x ∈ places, x.height τ + s.layout.counterAlignment.boundary ≤ 2 ^ 31) {k : SpaceId}
    {next : CounterId} {i : SectionId} (hp : ⟨k, next, .start i, c.candidates⟩ ∈ s.layout.placements) :
    ∃ n : Int32, s.finish.layout.spaces.length? k = some ⟨n, []⟩ ∧
      ∃ highest ∈ places, (∀ x ∈ places, x.height τ ≤ highest.height τ) ∧
        highest.height τ ≤ n.toInt ∧
        n.toInt < max 0 (highest.height τ) + s.layout.counterAlignment.boundary := by
  obtain ⟨u, length, hwf, -, huf, hlength, hfinal⟩ := exists_start hs hf hclean hp
  obtain ⟨highest, last, hhighest, hlast, rfl⟩ := attemptSpace_counterStart hlength
  have hu : u.layout.spaces.Fits τ := huf.spaces.fits hτ
  have hcandidates := (hc.known c rfl).2
  have hmem : highest ∈ places := hcandidates (Address.mem_of_highest hhighest)
  have htop : ∀ x ∈ places, x.height τ ≤ highest.height τ := fun x hx => by
    obtain ⟨d, hd, y, hy, hle⟩ := hc.covered x hx
    cases hd
    exact hle.trans (Address.height_le_highest hu (hfit.subset hcandidates) hhighest y hy)
  have hbytes : last = highest.bytes τ := by
    obtain ⟨hnil, rfl⟩ := Length.settled_eq_resolved hlast
    rw [Length.bytes_between hnil hu, Address.bytes_start, Int32.sub_zero]
  have hheight : last.toInt = highest.height τ := congrArg Int32.toInt hbytes
  have hclamped : (if last < 0 then 0 else last : Int32).toInt = max 0 (highest.height τ) := by
    have hzero : (0 : Int32).toInt = 0 := rfl
    split
    · rename_i hneg
      rw [Int32.lt_iff_toInt_lt] at hneg
      omega
    · rename_i hnonneg
      rw [Int32.lt_iff_toInt_lt] at hnonneg
      omega
  refine ⟨_, hfinal rfl, highest, hmem, htop, ?_⟩
  generalize (if last < 0 then 0 else last : Int32) = last at hclamped ⊢
  have hle := hround highest hmem
  have hboundary := hdyadic.le
  have hsum := hdyadic.toInt_add_padding (n := last) (by omega) (by omega)
  have hnonneg := hdyadic.padding_nonneg last.toInt
  have hlt := hdyadic.padding_lt last.toInt
  rw [hsum]
  omega

end Assembly

/-! ## 2. Sessions -/

namespace Session

open Assembly

variable {s : Session} {f : Assembly} {τ : SpaceId → Int32}

theorem ascends_perform (hs : s.assembly.Ready) {c : Command} (hc : c ≠ .finish)
    (h : (s.perform c).assembly.Completes f) (hτ : f.layout.spaces.Fits τ) (hfit : FitsTotal (s.stages c)) :
    Ascends τ s.assembly (s.stages c) (s.perform c).assembly := by
  by_cases hst : ∃ st, c = .process st
  · obtain ⟨st, rfl⟩ := hst
    exact ascends_process hs st h hτ hfit
  · have hfill := @fills_perform s c (fun st heq => hst ⟨st, heq⟩) hc
    have hstages : s.stages c = [{ state := (s.perform c).assembly }] := by
      cases c with
      | process st => exact absurd ⟨st, rfl⟩ hst
      | _ => rfl
    rw [hstages]
    exact .single hfill.extends.climbs

theorem ascends_performAll (hs : s.assembly.Ready) {commands : List Command} (hc : .finish ∉ commands)
    (h : (s.performAll commands).assembly.Completes f) (hτ : f.layout.spaces.Fits τ)
    (hfit : FitsTotal (s.trace commands)) :
    Ascends τ s.assembly (s.trace commands) (s.performAll commands).assembly := by
  induction commands generalizing s with
  | nil => exact .nil _
  | cons c rest ih =>
    have hne := (List.ne_of_not_mem_cons hc).symm
    have hrest := List.not_mem_of_not_mem_cons hc
    have hready := (leads_perform hs hne).ready hs
    have hcompletes := h.of_leads hready (leads_performAll hready hrest)
    exact (ascends_perform hs hne hcompletes hτ hfit.append.1).append (ih hready hrest h hfit.append.2)

/-- If nothing is reported, a further counter of a section begins on its boundary, neither below the section nor
below any place that the counter before it has had, and on the first such boundary. -/
theorem apart_of_finish (settings : Settings) (hvalid : settings.validate = .ok settings)
    (commands : List Command) (hc : .finish ∉ commands) :
    let s := ((new settings).performAll commands).assembly
    let f := s.finish
    let trace := (new settings).trace commands
    f.diagnostics = [] → FitsTotal trace →
    ∀ (i : SectionId) (sect : Section) (j : Nat) (previous next : CounterId),
      f.layout.section? i = some sect →
      sect.counters[j]? = some previous → sect.counters[j + 1]? = some next →
    ∀ τ, f.layout.spaces.Fits τ →
      let places := Stage.placesOf trace previous
      Address.WithinRange τ places →
      (∀ x ∈ places, x.height τ + settings.counterAlignment ≤ 2 ^ 31) →
    ∃ (counter : Counter) (n : Int32), f.layout.counter? next = some counter ∧
      counter.origin.normalize f.layout.spaces = { Address.start i with offset := n } ∧
      (settings.counterAlignment : Int) ∣ n.toInt ∧
      ∃ highest ∈ places, (∀ x ∈ places, x.height τ ≤ highest.height τ) ∧
        highest.height τ ≤ n.toInt ∧ n.toInt < max 0 (highest.height τ) + settings.counterAlignment := by
  intro s f trace hclean htotals i sect j previous next hsect hprevious hnext τ hτ places hfit hround
  have hleads := leads_performAll (s := new settings) (ready_new settings) hc
  have hready : s.Ready := hleads.ready (ready_new settings)
  have hfinished : s.finished = false := hleads.finished
  have halignment := counterAlignment_performAll (s := new settings) (ready_new settings) hc
  have hdyadic : s.layout.counterAlignment.Dyadic := halignment ▸ dyadic_counterAlignment hvalid
  have hboundary : s.layout.counterAlignment.boundary = settings.counterAlignment :=
    halignment ▸ boundary_counterAlignment hvalid
  have hfills := fills_finish hready
  have hcompletes := completes_finish hready hfinished hclean
  -- The counter and its start are those of the state before the end of the source.
  have hsect : s.layout.section? i = some sect := by
    rw [Layout.section?, ← hfills.sections]
    exact hsect
  obtain ⟨hpair, before, after, k, hbefore, hafter, hk, horigin⟩ :=
    hready.valid.formed.exists_neighbours hsect hprevious hnext
  have hstart : s.layout.HasStart k := ⟨_, after, hafter, hk⟩
  have hopen := (Moment.Reachable.unplaced (reachable_performAll settings commands) rfl hfinished k hstart).2
  have hcovers : Covers τ places (some before) := by
    have hascends := ascends_performAll (s := new settings) (ready_new settings) hc hcompletes hτ htotals
    have hall := hascends.covers previous (.nil τ) hfit
    rw [show ((new settings).performAll commands).assembly.layout.counter? previous = some before
      from hbefore] at hall
    exact hall
  rw [← hboundary] at hround ⊢
  obtain ⟨n, hlength, hhighest⟩ := start_apart hready hfinished hclean hdyadic hτ hcovers hfit hround
    (Layout.mem_placements hsect hpair hbefore hafter hk hopen)
  refine ⟨after, n, ?_, ?_, ?_, hhighest⟩
  · rw [Layout.counter?, hfills.counters]
    exact hafter
  · rw [horigin]
    exact Address.normalize_start_addSpace hcompletes.acyclic i hlength
  · have hmod := start_modEq (reachable_performAll settings commands) hready hfinished hclean hdyadic
      (by rw [halignment]; rfl) hτ (hstart.of_counters hfills.counters)
    have hτk : τ k = n := (hτ k _ hlength).trans (Int32.add_zero _)
    rw [hτk] at hmod
    exact Int.modEq_zero_iff_dvd.mp hmod

/-! ### A counter behind a byte -/

namespace Behind

open Halfword (byte afterByte process_byte)

def commands : List Command := [.process byte, .process Scaled.counterStart]

/-! The states in between. -/

def newCounter : Assembly :=
  { afterByte with layout := (afterByte.layout.createCounter (.ofString "T")).2 }

def inCounter : Assembly :=
  Scaled.enter newCounter (Scaled.place "T" newCounter.layout.origin .counterStart)

def placed : Assembly :=
  inCounter.mapLayout fun l => { l with spaces := (l.spaces.resolve? ⟨0⟩ ⟨8, []⟩).getD {} }

theorem process_counterStart : afterByte.process Scaled.counterStart = inCounter := by
  show newCounter.createSymbol (Scaled.place "T" newCounter.layout.origin .counterStart) = inCounter
  exact createSymbol_of_idle (by decide +kernel) (by decide +kernel) rfl

theorem performAll_commands : ((new {}).performAll commands).assembly = inCounter := by
  have hnew : (new {}).assembly = Assembly.new {} := rfl
  simp only [performAll, commands, List.foldl_cons, List.foldl_nil, perform, mapAssembly]
  rw [hnew, process_byte, process_counterStart]

theorem placements_inCounter :
    inCounter.layout.placements = [⟨⟨0⟩, ⟨1⟩, .start ⟨0⟩, [(Address.start ⟨0⟩).addOffset 1]⟩] := by decide +kernel

theorem placeCounters_inCounter : inCounter.placeCounters = placed := by
  unfold placeCounters
  rw [placements_inCounter]
  exact resolveOrDefer_of_resolved (d := .space ⟨0⟩ ⟨8, []⟩) (by decide +kernel) rfl rfl
    (by decide +kernel) rfl

theorem finish_inCounter :
    inCounter.finish = { placed with finished := true, pendings := placed.pendings.clear } :=
  finish_of_placed rfl placeCounters_inCounter rfl rfl (by decide +kernel)

theorem trace_commands : (new {}).trace commands =
    [{ state := Assembly.new {} }, { state := afterByte, total? := some 1 }, { state := inCounter }] := by
  have hlast : (new {}).trace commands =
      [{ state := Assembly.new {} }, { state := afterByte, total? := some 1 },
        { state := afterByte.process Scaled.counterStart }] := rfl
  rw [hlast, process_counterStart]

theorem placesOf_trace : Stage.placesOf ((new {}).trace commands) ⟨0⟩ =
    [.start ⟨0⟩, (Address.start ⟨0⟩).addOffset 1, .start ⟨0⟩, (Address.start ⟨0⟩).addOffset 1] := by
  rw [trace_commands]
  rfl

end Behind

/-- After one byte a further counter begins on the next doubleword. -/
theorem apart_of_finish_byte :
    let f := ((new {}).performAll Behind.commands).assembly.finish
    f.diagnostics = [] ∧ ∃ (counter : Counter) (n : Int32), f.layout.counter? ⟨1⟩ = some counter ∧
      counter.origin.normalize f.layout.spaces = { Address.start ⟨0⟩ with offset := n } ∧
      (8 : Int) ∣ n.toInt ∧ 1 ≤ n.toInt := by
  have hready : ((new {}).performAll Behind.commands).assembly.Ready :=
    (leads_performAll (s := new {}) (ready_new {}) (by simp [Behind.commands])).ready (ready_new {})
  have hclean : ((new {}).performAll Behind.commands).assembly.finish.diagnostics = [] := by
    rw [Behind.performAll_commands, Behind.finish_inCounter]
    rfl
  have hfinished : ((new {}).performAll Behind.commands).assembly.finished = false := by
    rw [Behind.performAll_commands]
    rfl
  have hsect : ((new {}).performAll Behind.commands).assembly.finish.layout.section? ⟨0⟩ =
      some ⟨⟨0⟩, none, .executable, [⟨0⟩, ⟨1⟩], ⟨1⟩⟩ := by
    rw [Behind.performAll_commands, Behind.finish_inCounter]
    rfl
  have htotals : FitsTotal ((new {}).trace Behind.commands) := by
    rw [Behind.trace_commands]
    simp [FitsTotal]
  obtain ⟨τ, hτ, -⟩ := Spaces.exists_fits (completes_finish hready hfinished hclean).acyclic fun _ => 0
  have hplaces : ∀ x ∈ Stage.placesOf ((new {}).trace Behind.commands) ⟨0⟩,
      x = .start ⟨0⟩ ∨ x = (Address.start ⟨0⟩).addOffset 1 := by
    rw [Behind.placesOf_trace]
    simp
  have hstart : (Address.start ⟨0⟩).bytes τ = 0 := rfl
  have hnext : ((Address.start ⟨0⟩).addOffset 1).bytes τ = 1 := rfl
  have hfit : Address.WithinRange τ (Stage.placesOf ((new {}).trace Behind.commands) ⟨0⟩) := by
    intro x hx y hy
    rcases hplaces x hx with rfl | rfl <;> rcases hplaces y hy with rfl | rfl <;>
      simp only [Address.height, hstart, hnext] <;> decide
  have hround : ∀ x ∈ Stage.placesOf ((new {}).trace Behind.commands) ⟨0⟩,
      x.height τ + ((8 : Nat) : Int) ≤ 2 ^ 31 := by
    intro x hx
    rcases hplaces x hx with rfl | rfl <;> simp only [Address.height, hstart, hnext] <;> decide
  obtain ⟨counter, n, hcounter, hbegin, hdvd, highest, -, htop, hle, -⟩ :=
    apart_of_finish {} rfl Behind.commands (by simp [Behind.commands]) hclean htotals ⟨0⟩ _ 0 ⟨0⟩ ⟨1⟩ hsect
      rfl rfl τ hτ hfit hround
  have hone : (1 : Int) ≤ highest.height τ := by
    have hmem : (Address.start ⟨0⟩).addOffset 1 ∈ Stage.placesOf ((new {}).trace Behind.commands) ⟨0⟩ := by
      rw [Behind.placesOf_trace]
      simp
    exact htop _ hmem
  exact ⟨hclean, counter, n, hcounter, hbegin, hdvd, hone.trans hle⟩

end Session

end Assembler
