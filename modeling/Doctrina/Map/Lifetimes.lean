import Doctrina.Internal.Lifetimes
import Doctrina.Lib.Execution
import Doctrina.Map.Placement
/-!
# Maps from map_new to map_destroy

The calls of a process on any number of maps.  Each returns on the objects what
it returns on the maps of `Map.Basic`, or faults in the same way, and afterwards
the live objects are those of the maps and the buffers and no others.
-/

namespace Doctrina.Map

open Doctrina.Internal Doctrina.Lib.Cells Doctrina.Lib.Execution

inductive Request
  | new (size : UInt64) (map buckets : Option Addr)
  | set (map : Addr) (key value : List UInt8) (answers : Answers)
  | get (map : Addr) (key : List UInt8) (size : Option Nat) (answer : Option Addr)
  | find (map : Addr) (key : List UInt8)
  | del (map : Addr) (key : List UInt8)
  | destroy (map : Option Addr)
  | free (buffer : Addr)

section Steps

variable (hash : List UInt8 → UInt64 → UInt64)

def call (process : Process Fields) : Request → Except Fault (Process Fields)
  | .new size map buckets => do
      let (memory, pointer) ← Memory.mapNew process.memory size map buckets
      return process.creates memory pointer
  | .set map key value answers => do
      let (memory, result) ← Memory.mapSet hash process.memory (some map) key value answers
      return process.returns memory result
  | .get map key size answer => do
      let (memory, buffer, size) ← Memory.mapGet hash process.memory (some map) key size answer
      return process.reads memory buffer (some size)
  | .find map key => do
      let result ← Memory.mapExists hash process.memory (some map) key
      return process.returns process.memory result
  | .del map key => do
      let (memory, result) ← Memory.mapDel hash process.memory (some map) key
      return process.returns memory result
  | .destroy map => do
      let memory ← Memory.mapDestroy process.memory map
      return process.destroys memory map
  | .free buffer => do
      let memory ← Store.free process.memory buffer
      return process.frees memory buffer

def callContents (contents : Contents Bucket) : Request → Except Fault (Contents Bucket)
  | .new size map _ =>
      match map with
      | none => .error (.exit "map_new" "could not allocate map to the heap")
      | some a => .ok (contents.creates a (mapNew size))
  | .set a key value _ => do
      let map ← contents.load a
      let (map, result) ← mapSet hash map key value
      return contents.stores a map result
  | .get a key size answer => do
      let map ← contents.load a
      let (bytes, size) ← mapGet hash map key size
      return contents.reads answer bytes (some size)
  | .find a key => do
      let map ← contents.load a
      return contents.returns (mapExists hash map key)
  | .del a key => do
      let map ← contents.load a
      return contents.stores a (mapDel hash map key).1 (mapDel hash map key).2
  | .destroy map => .ok (contents.destroys map)
  | .free buffer => .ok (contents.frees buffer)

/-- The call is on a map that was returned and not destroyed, memory is
available, and what is freed is a buffer that was returned and not freed. -/
def Legal (process : Process Fields) : Request → Prop
  | .new _ map buckets =>
      Fresh process.memory map ∧ Fresh process.memory buckets ∧ buckets ≠ map
  | .set map key _ answers =>
      map ∈ process.tables ∧ answers.Fresh process.memory ∧
        Resized process.memory (Memory.valueOf hash process.memory (some map) key)
          answers.resized
  | .get map _ _ answer => map ∈ process.tables ∧ Fresh process.memory answer
  | .find map _ => map ∈ process.tables
  | .del map _ => map ∈ process.tables
  | .destroy none => True
  | .destroy (some map) => map ∈ process.tables
  | .free buffer => buffer ∈ process.buffers

instance (process : Process Fields) : DecidablePred (Legal hash process)
  | .new _ _ _ => inferInstanceAs (Decidable (_ ∧ _ ∧ _))
  | .set _ _ _ _ => inferInstanceAs (Decidable (_ ∧ _ ∧ _))
  | .get _ _ _ _ => inferInstanceAs (Decidable (_ ∧ _))
  | .find map _ => inferInstanceAs (Decidable (map ∈ process.tables))
  | .del map _ => inferInstanceAs (Decidable (map ∈ process.tables))
  | .destroy none => .isTrue trivial
  | .destroy (some map) => inferInstanceAs (Decidable (map ∈ process.tables))
  | .free buffer => inferInstanceAs (Decidable (buffer ∈ process.buffers))

end Steps

/-- The objects are those of the maps. -/
abbrev Stands : Contents Bucket → Process Fields → Prop := Reflects layout Placed.bucket

section Refinement

variable {hash : List UInt8 → UInt64 → UInt64} {contents : Contents Bucket}
  {process : Process Fields} {a : Addr} {key : List UInt8}

theorem call_new (h : Stands contents process) (size : UInt64) {map buckets : Option Addr}
    (hlegal : Legal hash process (.new size map buckets)) :
    Matched Stands (callContents hash contents (.new size map buckets))
      (call hash process (.new size map buckets)) := by
  obtain ⟨hmap, hbuckets, hne⟩ := hlegal
  obtain ⟨a, rfl, ha⟩ := fresh_iff.mp hmap
  obtain ⟨array, rfl, harray⟩ := fresh_iff.mp hbuckets
  rw [ne_eq, Option.some.injEq] at hne
  obtain ⟨placements, blocks, hexactly, _, _⟩ := h.held
  obtain ⟨memory', placement, hnew, rfl, hview, hexactly'⟩ :=
    mapNew_exactly hexactly ha harray hne size
  have hcreates := h.creates hexactly hexactly'
  simp only [call, callContents, hnew, ← hview, bind, Except.bind]
  exact .ok hcreates

theorem call_set (h : Stands contents process) {value : List UInt8} {answers : Answers}
    (hlegal : Legal hash process (.set a key value answers)) :
    Matched Stands (callContents hash contents (.set a key value answers))
      (call hash process (.set a key value answers)) := by
  obtain ⟨ha, hfresh, hresized⟩ := hlegal
  obtain ⟨placement, frame, rfl, hload, hexactly, hstores⟩ := h.load ha
  have hset := mapSet_exactly hash key hexactly value hfresh hresized
  simp only [call, callContents, hload, bind, Except.bind]
  cases hcontent : mapSet hash (placement.table.map Placed.bucket) key value with
  | error e =>
      rw [Map.contents, hcontent] at hset
      simp only [hset]
      exact .error e
  | ok after =>
      rw [Map.contents, hcontent] at hset
      obtain ⟨memory', placement', heq, haddress, hview, hexactly'⟩ := hset
      simp only [heq, ← hview]
      exact .ok (hstores memory' placement' after.2 haddress hexactly')

theorem call_get (h : Stands contents process) {size : Option Nat} {answer : Option Addr}
    (hlegal : Legal hash process (.get a key size answer)) :
    Matched Stands (callContents hash contents (.get a key size answer))
      (call hash process (.get a key size answer)) := by
  obtain ⟨ha, hfresh⟩ := hlegal
  obtain ⟨b, rfl, hb⟩ := fresh_iff.mp hfresh
  obtain ⟨placement, frame, rfl, hload, hexactly, _⟩ := h.load ha
  have hget := mapGet_exactly hash key hexactly size hb
  simp only [call, callContents, hload, bind, Except.bind]
  cases hcontent : mapGet hash (placement.table.map Placed.bucket) key size with
  | error e =>
      rw [Map.contents, hcontent] at hget
      simp only [hget]
      exact .error e
  | ok found =>
      obtain ⟨bytes, n⟩ := found
      cases bytes with
      | none =>
          rw [Map.contents, hcontent] at hget
          simp only [hget]
          exact .ok (h.reads_none (some b) (some n))
      | some bytes =>
          rw [Map.contents, hcontent] at hget
          obtain ⟨memory', heq, hexactly'⟩ := hget
          simp only [heq]
          exact .ok (h.reads_some hexactly hexactly' (some n))

theorem call_find (h : Stands contents process) (ha : a ∈ process.tables) :
    Matched Stands (callContents hash contents (.find a key))
      (call hash process (.find a key)) := by
  obtain ⟨placement, frame, rfl, hload, hexactly, _⟩ := h.load ha
  have hexists := mapExists_exactly hash key hexactly
  simp only [call, callContents, hload, hexists, bind, Except.bind]
  exact .ok (h.returns _)

theorem call_del (h : Stands contents process) (ha : a ∈ process.tables) :
    Matched Stands (callContents hash contents (.del a key)) (call hash process (.del a key)) := by
  obtain ⟨placement, frame, rfl, hload, hexactly, hstores⟩ := h.load ha
  obtain ⟨memory', placement', heq, haddress, hview, hexactly'⟩ := mapDel_exactly hash key hexactly
  have hstored := hstores memory' placement'
    (mapDel hash (Map.contents placement) key).2 haddress hexactly'
  rw [show placement'.table.map Placed.bucket = _ from hview] at hstored
  simp only [call, callContents, hload, heq, bind, Except.bind]
  exact .ok hstored

theorem call_destroy (h : Stands contents process) {map : Option Addr}
    (hlegal : Legal hash process (.destroy map)) :
    Matched Stands (callContents hash contents (.destroy map))
      (call hash process (.destroy map)) := by
  cases map with
  | none => exact .ok h.destroys_none
  | some a =>
      obtain ⟨placement, frame, rfl, hexactly, hdestroys⟩ := h.destroys_some hlegal
      obtain ⟨memory', heq, hexactly'⟩ := mapDestroy_exactly hexactly
      simp only [call, callContents, heq, bind, Except.bind]
      exact .ok (hdestroys memory' hexactly')

theorem call_free (h : Stands contents process) (ha : a ∈ process.buffers) :
    Matched Stands (callContents hash contents (.free a)) (call hash process (.free a)) := by
  obtain ⟨memory', heq, hfrees⟩ := h.frees ha
  simp only [call, callContents, heq, bind, Except.bind]
  exact .ok hfrees

theorem call_matched (op : Request) (h : Stands contents process) (hlegal : Legal hash process op) :
    Matched Stands (callContents hash contents op) (call hash process op) := by
  cases op with
  | new size map buckets => exact call_new h size hlegal
  | set a key value answers => exact call_set h hlegal
  | get a key size answer => exact call_get h hlegal
  | find a key => exact call_find h hlegal
  | del a key => exact call_del h hlegal
  | destroy map => exact call_destroy h hlegal
  | free buffer => exact call_free h hlegal

theorem calls_matched {calls : List Request}
    (h : AlongM (call hash) (Legal hash) Process.init calls) :
    Matched Stands (calls.foldlM (callContents hash) Contents.init)
      (calls.foldlM (call hash) Process.init) :=
  matched_foldlM (fun _ _ op h hlegal => call_matched op h hlegal) Reflects.init h

end Refinement

section Runs

variable (hash : List UInt8 → UInt64 → UInt64) {calls : List Request} {process : Process Fields}

/-- The functions of map.c on their objects refine those on the maps, for any
number of maps in use at the same time. -/
theorem objects_refine_contents (h : AlongM (call hash) (Legal hash) Process.init calls) :
    Matched Stands (calls.foldlM (callContents hash) Contents.init)
      (calls.foldlM (call hash) Process.init) :=
  calls_matched h

theorem nothing_leaks (h : AlongM (call hash) (Legal hash) Process.init calls)
    (hrun : calls.foldlM (call hash) Process.init = .ok process)
    (htables : process.tables = ∅) (hbuffers : process.buffers = ∅) : process.memory = ∅ := by
  have hmatched := calls_matched h
  rw [hrun] at hmatched
  obtain ⟨contents, _, hstands⟩ := hmatched.exists_ok
  exact hstands.eq_empty htables hbuffers

end Runs

/-- Two keys that begin in the same bucket, one of them deleted, a value that is
reallocated to another address, then at its own, and read, and a second map. -/
def session : List Request :=
  [.new 3 (some 16) (some 32), .new 1 (some 48) (some 64),
   .set 16 [1] [7, 8] ⟨some 80, some 96, some 112, some 128⟩,
   .set 16 [2] [9] ⟨some 128, some 144, some 160, some 176⟩,
   .set 48 [1] [] ⟨some 176, some 192, some 208, some 224⟩,
   .set 16 [2] [9, 8] ⟨some 208, some 224, some 240, some 256⟩,
   .set 16 [2] [9, 8, 7] ⟨some 208, some 224, some 240, some 256⟩,
   .get 16 [2] (some 0) (some 224), .del 16 [1], .find 16 [2],
   .set 16 [2] [5] ⟨some 80, some 96, some 112, some 240⟩,
   .destroy (some 48), .destroy (some 16), .destroy none, .free 224]

theorem objects_refine_contents_session :
    Matched Stands (session.foldlM (callContents fun _ _ => 0) Contents.init)
      (session.foldlM (call fun _ _ => 0) Process.init) := by
  have hlegal : AlongM (call fun _ _ => 0) (Legal fun _ _ => 0) Process.init session := by
    decide +kernel
  exact objects_refine_contents _ hlegal

theorem nothing_leaks_session : ∃ process : Process Fields,
    session.foldlM (call fun _ _ => 0) Process.init = .ok process ∧ process.memory = ∅ := by
  have hheld : (session.foldlM (call fun _ _ => 0) Process.init).map
      (fun process => (process.tables, process.buffers)) = .ok (∅, ∅) := by
    decide +kernel
  obtain ⟨process, hrun, heq⟩ := Except.map_eq_ok hheld
  exact ⟨process, hrun, nothing_leaks _ (by decide +kernel) hrun (congrArg Prod.fst heq)
    (congrArg Prod.snd heq)⟩

end Doctrina.Map
