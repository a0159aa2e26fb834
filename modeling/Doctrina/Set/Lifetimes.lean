import Doctrina.Internal.Lifetimes
import Doctrina.Set.Getall
/-!
# Sets from set_new to set_destroy

As in `Map.Lifetimes`, with the two functions that return buffers.
-/

namespace Doctrina.Set

open Doctrina.Internal Doctrina.Lib.Cells Doctrina.Lib.Execution

inductive Request
  | new (size : UInt64) (set buckets : Option Addr)
  | add (set : Addr) (key : List UInt8) (answers : Answers)
  | get (set : Addr) (key : List UInt8) (size : Option Nat) (answer : Option Addr)
  | getall (set : Addr) (overallSize : Option Nat) (rounds : Nat → Round)
  | find (set : Addr) (key : List UInt8)
  | remove (set : Addr) (key : List UInt8)
  | destroy (set : Option Addr)
  | free (buffer : Addr)

section Steps

variable (hash : List UInt8 → UInt64 → UInt64)

def call (process : Process Fields) : Request → Except Fault (Process Fields)
  | .new size set buckets => do
      let (memory, pointer) ← Memory.setNew process.memory size set buckets
      return process.creates memory pointer
  | .add set key answers => do
      let (memory, result) ← Memory.setAdd hash process.memory (some set) key answers
      return process.returns memory result
  | .get set key size answer => do
      let (memory, buffer, size) ← Memory.setGet hash process.memory (some set) key size answer
      return process.reads memory buffer size
  | .getall set overallSize rounds => do
      let (memory, buffer, overall) ←
        Memory.setGetall process.memory (some set) overallSize rounds
      return process.reads memory buffer (some overall)
  | .find set key => do
      let result ← Memory.setExists hash process.memory (some set) key
      return process.returns process.memory result
  | .remove set key => do
      let (memory, result) ← Memory.setRemove hash process.memory (some set) key
      return process.returns memory result
  | .destroy set => do
      let memory ← Memory.setDestroy process.memory set
      return process.destroys memory set
  | .free buffer => do
      let memory ← Store.free process.memory buffer
      return process.frees memory buffer

def callContents (contents : Contents Bucket) : Request → Except Fault (Contents Bucket)
  | .new size set _ =>
      match set with
      | none => .error (.exit "set_new" "could not allocate set to the heap")
      | some a => .ok (contents.creates a (setNew size))
  | .add a key _ => do
      let set ← contents.load a
      return contents.stores a (setAdd hash set key).1 (setAdd hash set key).2
  | .get a key size answer => do
      let set ← contents.load a
      let (bytes, size) ← setGet hash set key size
      return contents.reads answer bytes size
  | .getall a overallSize rounds => do
      let set ← contents.load a
      let (bytes, overall) ← setGetall set overallSize
      return contents.reads
        ((List.range set.size.toNat).foldl (getallAddress set rounds) none) bytes (some overall)
  | .find a key => do
      let set ← contents.load a
      return contents.returns (setExists hash set key)
  | .remove a key => do
      let set ← contents.load a
      return contents.stores a (setRemove hash set key).1 (setRemove hash set key).2
  | .destroy set => .ok (contents.destroys set)
  | .free buffer => .ok (contents.frees buffer)

/-- Memory is available in every round of `set_getall`. -/
def AvailableAll (memory : Memory) (set : Addr) (rounds : Nat → Round) : Prop :=
  match memory.header (some set) with
  | .ok (buckets, size) =>
      AlongM (Memory.getallStep buckets rounds) (Available buckets rounds) ⟨memory, none, 0⟩
        (List.range size.toNat)
  | .error _ => False

instance (memory : Memory) (set : Addr) (rounds : Nat → Round) :
    Decidable (AvailableAll memory set rounds) := by
  unfold AvailableAll
  cases memory.header (some set) with
  | ok header => exact decidableAlongM _ _
  | error e => exact .isFalse id

/-- The call is on a set that was returned and not destroyed, memory is
available, and what is freed is a buffer that was returned and not freed. -/
def Legal (process : Process Fields) : Request → Prop
  | .new _ set buckets =>
      Fresh process.memory set ∧ Fresh process.memory buckets ∧ buckets ≠ set
  | .add set _ answers => set ∈ process.tables ∧ answers.Fresh process.memory
  | .get set _ _ answer => set ∈ process.tables ∧ Fresh process.memory answer
  | .getall set _ rounds => set ∈ process.tables ∧ AvailableAll process.memory set rounds
  | .find set _ => set ∈ process.tables
  | .remove set _ => set ∈ process.tables
  | .destroy none => True
  | .destroy (some set) => set ∈ process.tables
  | .free buffer => buffer ∈ process.buffers

instance (process : Process Fields) : DecidablePred (Legal process)
  | .new _ _ _ => inferInstanceAs (Decidable (_ ∧ _ ∧ _))
  | .add _ _ _ => inferInstanceAs (Decidable (_ ∧ _))
  | .get _ _ _ _ => inferInstanceAs (Decidable (_ ∧ _))
  | .getall _ _ _ => inferInstanceAs (Decidable (_ ∧ _))
  | .find set _ => inferInstanceAs (Decidable (set ∈ process.tables))
  | .remove set _ => inferInstanceAs (Decidable (set ∈ process.tables))
  | .destroy none => .isTrue trivial
  | .destroy (some set) => inferInstanceAs (Decidable (set ∈ process.tables))
  | .free buffer => inferInstanceAs (Decidable (buffer ∈ process.buffers))

end Steps

/-- The objects are those of the sets. -/
abbrev Stands : Contents Bucket → Process Fields → Prop := Reflects layout Placed.bucket

section Refinement

variable {hash : List UInt8 → UInt64 → UInt64} {contents : Contents Bucket}
  {process : Process Fields} {a : Addr} {key : List UInt8}

theorem call_new (h : Stands contents process) (size : UInt64) {set buckets : Option Addr}
    (hlegal : Legal process (.new size set buckets)) :
    Matched Stands (callContents hash contents (.new size set buckets))
      (call hash process (.new size set buckets)) := by
  obtain ⟨hset, hbuckets, hne⟩ := hlegal
  obtain ⟨a, rfl, ha⟩ := fresh_iff.mp hset
  obtain ⟨array, rfl, harray⟩ := fresh_iff.mp hbuckets
  rw [ne_eq, Option.some.injEq] at hne
  obtain ⟨placements, blocks, hexactly, _, _⟩ := h.held
  obtain ⟨memory', placement, hnew, rfl, hview, hexactly'⟩ :=
    setNew_exactly hexactly ha harray hne size
  have hcreates := h.creates hexactly hexactly'
  simp only [call, callContents, hnew, ← hview, bind, Except.bind]
  exact .ok hcreates

theorem call_add (h : Stands contents process) {answers : Answers}
    (hlegal : Legal process (.add a key answers)) :
    Matched Stands (callContents hash contents (.add a key answers))
      (call hash process (.add a key answers)) := by
  obtain ⟨ha, hfresh⟩ := hlegal
  obtain ⟨placement, frame, rfl, hload, hexactly, hstores⟩ := h.load ha
  obtain ⟨memory', placement', heq, haddress, hview, hexactly'⟩ :=
    setAdd_exactly hash key hexactly hfresh
  have hstored := hstores memory' placement'
    (setAdd hash (Set.contents placement) key).2 haddress hexactly'
  rw [show placement'.table.map Placed.bucket = _ from hview] at hstored
  simp only [call, callContents, hload, heq, bind, Except.bind]
  exact .ok hstored

theorem call_get (h : Stands contents process) {size : Option Nat} {answer : Option Addr}
    (hlegal : Legal process (.get a key size answer)) :
    Matched Stands (callContents hash contents (.get a key size answer))
      (call hash process (.get a key size answer)) := by
  obtain ⟨ha, hfresh⟩ := hlegal
  obtain ⟨b, rfl, hb⟩ := fresh_iff.mp hfresh
  obtain ⟨placement, frame, rfl, hload, hexactly, _⟩ := h.load ha
  have hget := setGet_exactly hash key hexactly size hb
  simp only [call, callContents, hload, bind, Except.bind]
  cases hcontent : setGet hash (placement.table.map Placed.bucket) key size with
  | error e =>
      rw [Set.contents, hcontent] at hget
      simp only [hget]
      exact .error e
  | ok found =>
      obtain ⟨bytes, n⟩ := found
      cases bytes with
      | none =>
          rw [Set.contents, hcontent] at hget
          simp only [hget]
          exact .ok (h.reads_none (some b) n)
      | some bytes =>
          rw [Set.contents, hcontent] at hget
          obtain ⟨memory', heq, hexactly'⟩ := hget
          simp only [heq]
          exact .ok (h.reads_some hexactly hexactly' n)

theorem call_getall (h : Stands contents process) {overallSize : Option Nat}
    {rounds : Nat → Round} (hlegal : Legal process (.getall a overallSize rounds)) :
    Matched Stands (callContents hash contents (.getall a overallSize rounds))
      (call hash process (.getall a overallSize rounds)) := by
  obtain ⟨ha, havailable⟩ := hlegal
  obtain ⟨placement, frame, rfl, hload, hexactly, _⟩ := h.load ha
  have hheader : process.memory.header (some placement.address) =
      .ok (some placement.array, placement.table.size) := header_eq hexactly
  rw [AvailableAll, hheader] at havailable
  have hgetall := setGetall_exactly hexactly overallSize havailable
  simp only [call, callContents, hload, bind, Except.bind]
  cases hcontent : setGetall (placement.table.map Placed.bucket) overallSize with
  | error e =>
      rw [Set.contents, hcontent] at hgetall
      simp only [hgetall]
      exact .error e
  | ok found =>
      obtain ⟨bytes, n⟩ := found
      cases bytes with
      | none =>
          rw [Set.contents, hcontent] at hgetall
          simp only [hgetall]
          exact .ok (h.reads_none _ (some n))
      | some bytes =>
          rw [Set.contents, hcontent] at hgetall
          obtain ⟨memory', b, haddress, heq, hexactly'⟩ := hgetall
          have hsize : (placement.table.map Placed.bucket).size = placement.table.size := rfl
          simp only [heq, hsize, haddress]
          exact .ok (h.reads_some hexactly hexactly' (some n))

theorem call_find (h : Stands contents process) (ha : a ∈ process.tables) :
    Matched Stands (callContents hash contents (.find a key))
      (call hash process (.find a key)) := by
  obtain ⟨placement, frame, rfl, hload, hexactly, _⟩ := h.load ha
  have hexists := setExists_exactly hash key hexactly
  simp only [call, callContents, hload, hexists, bind, Except.bind]
  exact .ok (h.returns _)

theorem call_remove (h : Stands contents process) (ha : a ∈ process.tables) :
    Matched Stands (callContents hash contents (.remove a key))
      (call hash process (.remove a key)) := by
  obtain ⟨placement, frame, rfl, hload, hexactly, hstores⟩ := h.load ha
  obtain ⟨memory', placement', heq, haddress, hview, hexactly'⟩ :=
    setRemove_exactly hash key hexactly
  have hstored := hstores memory' placement'
    (setRemove hash (Set.contents placement) key).2 haddress hexactly'
  rw [show placement'.table.map Placed.bucket = _ from hview] at hstored
  simp only [call, callContents, hload, heq, bind, Except.bind]
  exact .ok hstored

theorem call_destroy (h : Stands contents process) {set : Option Addr}
    (hlegal : Legal process (.destroy set)) :
    Matched Stands (callContents hash contents (.destroy set))
      (call hash process (.destroy set)) := by
  cases set with
  | none => exact .ok h.destroys_none
  | some a =>
      obtain ⟨placement, frame, rfl, hexactly, hdestroys⟩ := h.destroys_some hlegal
      obtain ⟨memory', heq, hexactly'⟩ := setDestroy_exactly hexactly
      simp only [call, callContents, heq, bind, Except.bind]
      exact .ok (hdestroys memory' hexactly')

theorem call_free (h : Stands contents process) (ha : a ∈ process.buffers) :
    Matched Stands (callContents hash contents (.free a)) (call hash process (.free a)) := by
  obtain ⟨memory', heq, hfrees⟩ := h.frees ha
  simp only [call, callContents, heq, bind, Except.bind]
  exact .ok hfrees

theorem call_matched (op : Request) (h : Stands contents process) (hlegal : Legal process op) :
    Matched Stands (callContents hash contents op) (call hash process op) := by
  cases op with
  | new size set buckets => exact call_new h size hlegal
  | add a key answers => exact call_add h hlegal
  | get a key size answer => exact call_get h hlegal
  | getall a overallSize rounds => exact call_getall h hlegal
  | find a key => exact call_find h hlegal
  | remove a key => exact call_remove h hlegal
  | destroy set => exact call_destroy h hlegal
  | free buffer => exact call_free h hlegal

theorem calls_matched {calls : List Request} (h : AlongM (call hash) Legal Process.init calls) :
    Matched Stands (calls.foldlM (callContents hash) Contents.init)
      (calls.foldlM (call hash) Process.init) :=
  matched_foldlM (fun _ _ op h hlegal => call_matched op h hlegal) Reflects.init h

end Refinement

section Runs

variable (hash : List UInt8 → UInt64 → UInt64) {calls : List Request} {process : Process Fields}

/-- The functions of set.c on their objects refine those on the sets, for any
number of sets in use at the same time. -/
theorem sets_refine_contents (h : AlongM (call hash) Legal Process.init calls) :
    Matched Stands (calls.foldlM (callContents hash) Contents.init)
      (calls.foldlM (call hash) Process.init) :=
  calls_matched h

theorem sets_leak_nothing (h : AlongM (call hash) Legal Process.init calls)
    (hrun : calls.foldlM (call hash) Process.init = .ok process)
    (htables : process.tables = ∅) (hbuffers : process.buffers = ∅) : process.memory = ∅ := by
  have hmatched := calls_matched h
  rw [hrun] at hmatched
  obtain ⟨contents, _, hstands⟩ := hmatched.exists_ok
  exact hstands.eq_empty htables hbuffers

end Runs

/-- Three keys, one of them removed and one refused, read out in one buffer
that moves, while a second set is in use. -/
def session : List Request :=
  [.new 2 (some 16) (some 32), .new 1 (some 48) (some 64),
   .add 16 [1] ⟨some 80, some 96⟩, .add 16 [2, 3] ⟨some 112, some 128⟩,
   .add 16 [4] ⟨some 144, some 160⟩, .add 48 [] ⟨some 144, some 160⟩,
   .getall 16 (some 0) fun i => ⟨some 192, some (208 + 16 * i.toUInt64)⟩,
   .remove 16 [1], .find 16 [2, 3], .get 48 [5] none (some 240),
   .destroy (some 48), .destroy (some 16), .destroy none, .free 224]

theorem sets_refine_contents_session :
    Matched Stands (session.foldlM (callContents fun _ _ => 0) Contents.init)
      (session.foldlM (call fun _ _ => 0) Process.init) := by
  have hlegal : AlongM (call fun _ _ => 0) Legal Process.init session := by
    decide +kernel
  exact sets_refine_contents _ hlegal

theorem sets_leak_nothing_session : ∃ process : Process Fields,
    session.foldlM (call fun _ _ => 0) Process.init = .ok process ∧ process.memory = ∅ := by
  have hheld : (session.foldlM (call fun _ _ => 0) Process.init).map
      (fun process => (process.tables, process.buffers)) = .ok (∅, ∅) := by
    decide +kernel
  obtain ⟨process, hrun, heq⟩ := Except.map_eq_ok hheld
  exact ⟨process, hrun, sets_leak_nothing _ (by decide +kernel) hrun (congrArg Prod.fst heq)
    (congrArg Prod.snd heq)⟩

end Doctrina.Set
