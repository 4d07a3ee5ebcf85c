import Assembler.Assembly.Process
import Assembler.Proofs.Definition
/-!
Statements that stand elsewhere.

A location is recorded with every symbol and with all pending work, and it is reported with every diagnostic. Nothing
is computed from it: tables of symbols and of pending work whose locations are changed behave as before
(`SymbolTable.create?_mapLocation`, `PendingTable.take?_map`, `PendingTable.missingRoots_map`).
-/

namespace Assembler

/-! ## 1. What has a location -/

def Diagnostic.mapLocation (g : Location → Location) (d : Diagnostic) : Diagnostic :=
  { d with location := g d.location }

def Frame.mapLocation (g : Location → Location) (f : Frame) : Frame := { f with location := g f.location }

def Job.mapLocation (g : Location → Location) (job : Job) : Job := { job with frame := job.frame.mapLocation g }

def Symbol.mapLocation (g : Location → Location) (sym : Symbol) : Symbol :=
  { sym with location := g sym.location }

def Statement.mapLocation (g : Location → Location) (st : Statement) : Statement :=
  { st with location := g st.location }

variable (g : Location → Location)

@[simp] theorem Frame.location_mapLocation (f : Frame) : (f.mapLocation g).location = g f.location := rfl

@[simp] theorem Statement.location_mapLocation (st : Statement) : (st.mapLocation g).location = g st.location := rfl

@[simp] theorem Statement.label?_mapLocation (st : Statement) : (st.mapLocation g).label? = st.label? := rfl

@[simp] theorem Statement.opcode_mapLocation (st : Statement) : (st.mapLocation g).opcode = st.opcode := rfl

@[simp] theorem Statement.operation_mapLocation (st : Statement) :
    (st.mapLocation g).operation = st.operation := rfl

/-- Elsewhere a line is read as the same statement, or as none for the same reason. -/
theorem Statement.result_read_mapLocation (fields : Source.Fields) (location : Location) :
    (Statement.read fields (g location)).result =
      (Statement.read fields location).result.map (Statement.mapLocation g) := by
  unfold Statement.read
  simp only [bind, pure]
  cases (readLabel fields.label?).result with
  | error e => rfl
  | ok label? =>
    cases hrole : Directive.roleOf? (.ofText fields.opcode) with
    | none => simp only [Reading.mention, hrole]; rfl
    | some role =>
      simp only [Reading.mention, hrole]
      cases (readOperation role (operandTexts fields.operands)).result <;> rfl

/-! ## 2. Tables of symbols -/

namespace SymbolTable

def mapLocation (t : SymbolTable) : SymbolTable := ⟨t.entries.map fun _ sym => sym.mapLocation g⟩

variable (t : SymbolTable)

@[simp] theorem get?_mapLocation (n : Name) :
    (t.mapLocation g).get? n = (t.get? n).map (Symbol.mapLocation g) := Std.ExtTreeMap.getElem?_map

@[simp] theorem contains_mapLocation (n : Name) : (t.mapLocation g).contains n = t.contains n := by
  simp only [contains, get?_mapLocation, Option.isSome_map]

/-- Two tables are the same when they have the same symbols under all names. -/
theorem ext_get? {t u : SymbolTable} (h : ∀ n, t.get? n = u.get? n) : t = u := by
  cases t
  cases u
  exact congrArg mk (Std.ExtTreeMap.ext_getElem? fun n => h n)

theorem mapLocation_insert (sym : Symbol) (n : Name) :
    (⟨(t.mapLocation g).entries.insert n (sym.mapLocation g)⟩ : SymbolTable) =
      mapLocation g ⟨t.entries.insert n sym⟩ := by
  refine ext_get? fun m => ?_
  rw [get?_mapLocation, get?_insert, get?_insert, get?_mapLocation]
  split <;> rfl

theorem create?_mapLocation (sym : Symbol) :
    (t.mapLocation g).create? (sym.mapLocation g) = (t.create? sym).map (mapLocation g) := by
  have hcontains : (t.mapLocation g).contains (sym.mapLocation g).name = t.contains sym.name :=
    contains_mapLocation g t _
  unfold create?
  rw [hcontains]
  split
  · rfl
  · exact congrArg some (mapLocation_insert g t sym sym.name)

theorem mapLocation_id : t.mapLocation id = t := by
  refine ext_get? fun n => ?_
  rw [get?_mapLocation]
  cases t.get? n <;> rfl

theorem mapLocation_empty : mapLocation g {} = {} := ext_get? fun n => by rw [get?_mapLocation]; rfl

theorem update?_mapLocation (n : Name) {f : Symbol → Option Symbol}
    (hf : ∀ sym, f (sym.mapLocation g) = (f sym).map (Symbol.mapLocation g)) :
    (t.mapLocation g).update? n f = (t.update? n f).map (mapLocation g) := by
  unfold update?
  rw [get?_mapLocation]
  cases t.get? n with
  | none => rfl
  | some sym =>
    simp only [Option.map_some, Option.bind_eq_bind, Option.bind_some, hf]
    cases f sym with
    | none => rfl
    | some sym' => exact congrArg some (mapLocation_insert g t sym' n)

theorem setValue?_mapLocation (n : Name) (value? : Option Value) :
    (t.mapLocation g).setValue? n value? = (t.setValue? n value?).map (mapLocation g) := by
  refine update?_mapLocation g t n fun sym => ?_
  change (if sym.isDefined then none else _) = _
  split <;> rfl

theorem setLength?_mapLocation (n : Name) (length : Nat) :
    (t.mapLocation g).setLength? n length = (t.setLength? n length).map (mapLocation g) := by
  refine update?_mapLocation g t n fun sym => ?_
  change (sym.attributes.length.fill? length).bind _ = ((sym.attributes.length.fill? length).bind _).map _
  cases sym.attributes.length.fill? length <;> rfl

theorem setScale?_mapLocation (n : Name) (scale : Int32) :
    (t.mapLocation g).setScale? n scale = (t.setScale? n scale).map (mapLocation g) := by
  refine update?_mapLocation g t n fun sym => ?_
  change (sym.attributes.scale.fill? scale).bind _ = ((sym.attributes.scale.fill? scale).bind _).map _
  cases sym.attributes.scale.fill? scale <;> rfl

theorem setInteger?_mapLocation (n : Name) (integer : Int32) :
    (t.mapLocation g).setInteger? n integer = (t.setInteger? n integer).map (mapLocation g) := by
  refine update?_mapLocation g t n fun sym => ?_
  change (sym.attributes.integer.fill? integer).bind _ = ((sym.attributes.integer.fill? integer).bind _).map _
  cases sym.attributes.integer.fill? integer <;> rfl

end SymbolTable

/-! ## 3. Tables of pending work -/

def Pending.map {τ : Type} (f : τ → τ) (p : Pending τ) : Pending τ := ⟨f p.work, p.waiting⟩

namespace PendingTable

variable {τ : Type} (f : τ → τ) (t : PendingTable τ)

/-- The table with other work that waits for the same and produces the same. -/
def map : PendingTable τ :=
  { next := t.next, entries := t.entries.map fun _ => Pending.map f, producers := t.producers, waiters := t.waiters }

@[simp] theorem get?_map (id : Nat) : (t.map f).get? id = (t.get? id).map (Pending.map f) :=
  Std.ExtTreeMap.getElem?_map

theorem map_id : t.map id = t := by
  have hentries : t.entries.map (fun _ => Pending.map id) = t.entries := by
    refine Std.ExtTreeMap.ext_getElem? fun id => ?_
    rw [Std.ExtTreeMap.getElem?_map]
    cases t.entries[id]? <;> rfl
  unfold map
  rw [hentries]

theorem toList_map : (t.map f).toList = t.toList.map fun x => (x.1, x.2.map f) :=
  Std.ExtTreeMap.toList_map

theorem waitingOf?_map (key : Prerequisite) : (t.map f).waitingOf? key = t.waitingOf? key := by
  have hproducer : (t.map f).producer? key = t.producer? key := rfl
  unfold waitingOf?
  rw [hproducer]
  cases t.producer? key with
  | none => rfl
  | some id =>
    rw [Option.bind_some, Option.bind_some, get?_map]
    cases t.get? id <;> rfl

theorem visit_map (seen : Std.TreeSet Prerequisite) (stack : List Prerequisite) :
    (t.map f).visit seen stack = t.visit seen stack := by
  fun_induction visit t seen stack with
  | case1 seen => rw [visit]
  | case2 seen p rest hseen ih => rw [visit, if_pos hseen, ih]
  | case3 seen p rest hseen hnone ih =>
    rw [visit, if_neg hseen]
    split
    · rw [ih]
    · rename_i waiting hsome
      rw [waitingOf?_map, hnone] at hsome
      cases hsome
  | case4 seen p rest hseen waiting hsome ih =>
    rw [visit, if_neg hseen]
    split
    · rename_i hnone
      rw [waitingOf?_map, hsome] at hnone
      cases hnone
    · rename_i waiting' hsome'
      rw [waitingOf?_map, hsome] at hsome'
      cases hsome'
      rw [ih]

theorem createsCycle_map (key : Prerequisite) (waiting : List Prerequisite) :
    (t.map f).createsCycle key waiting = t.createsCycle key waiting := by
  unfold createsCycle reachable
  rw [visit_map]

theorem missingRoots_map (waiting : List Prerequisite) :
    (t.map f).missingRoots waiting = t.missingRoots waiting := by
  simp only [missingRoots, reachable, visit_map, waitingOf?_map]

theorem clear_map : (t.map f).clear = t.clear.map f := by
  have hempty : (∅ : Std.ExtTreeMap Nat (Pending τ)).map (fun _ => Pending.map f) = ∅ :=
    Std.ExtTreeMap.ext_getElem? fun id => by simp
  unfold clear map
  rw [hempty]

theorem map_empty : map f ({} : PendingTable τ) = {} := (clear_map f {}).symm

variable [Produces τ] (hf : ∀ work : τ, product? (f work) = product? work)
include hf

theorem reinsert_map (id : Nat) (p : Pending τ) :
    (t.map f).reinsert id (p.map f) = (t.reinsert id p).map f := by
  have hentries : (t.entries.map fun _ => Pending.map f).insert id (p.map f) =
      (t.entries.insert id p).map fun _ => Pending.map f := by
    refine Std.ExtTreeMap.ext_getElem? fun j => ?_
    rw [Std.ExtTreeMap.getElem?_insert, Std.ExtTreeMap.getElem?_map, Std.ExtTreeMap.getElem?_map,
      Std.ExtTreeMap.getElem?_insert]
    split <;> rfl
  have hproduct : product? (p.map f).work = product? p.work := hf p.work
  simp only [reinsert, map, hentries, hproduct]
  rfl

theorem take?_map (id : Nat) :
    (t.map f).take? id = (t.take? id).map fun x => (x.1.map f, x.2.map f) := by
  unfold take?
  rw [get?_map]
  cases t.get? id with
  | none => rfl
  | some p =>
    have hentries : (t.entries.map fun _ => Pending.map f).erase id =
        (t.entries.erase id).map fun _ => Pending.map f := by
      refine Std.ExtTreeMap.ext_getElem? fun j => ?_
      rw [Std.ExtTreeMap.getElem?_erase, Std.ExtTreeMap.getElem?_map, Std.ExtTreeMap.getElem?_map,
        Std.ExtTreeMap.getElem?_erase]
      split <;> rfl
    have hproduct : product? (p.map f).work = product? p.work := hf p.work
    simp only [Option.map_some, hproduct, map, hentries]
    rfl

theorem first?_map (all : Bool) : (t.map f).first? all = t.first? all := by
  have hwork (p : Pending τ) : product? (p.map f).work = product? p.work := hf p.work
  simp only [first?, toList_map, List.find?_map, Option.map_map, Function.comp_def, hwork]

end PendingTable

end Assembler
