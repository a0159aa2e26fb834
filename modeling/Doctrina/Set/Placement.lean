import Doctrina.Set.InsertOnly
import Doctrina.Set.Objects
/-!
# The objects of a set

As in `Map.Placement`: on the cells of a set and any frame each function of
set.c does what its namesake of `Set.Basic` does on the set, and leaves the
cells of the set afterwards and the same frame.
-/

namespace Doctrina.Set

open Doctrina.Internal Doctrina.Lib.Cells Doctrina.Lib.Execution

/-- A bucket with the addresses of its object and its key. -/
structure Placed where
  address : Addr
  keylen : Nat
  key : Option (Addr × List UInt8)
  keylen_eq : keylen = ((key.map Prod.snd).getD []).length

namespace Placed

def bucket (placed : Placed) : Bucket where
  keylen := placed.keylen
  key := placed.key.map Prod.snd
  keylen_eq := placed.keylen_eq

def fields (placed : Placed) : Fields where
  keylen := placed.keylen
  key := placed.key.map Prod.fst

def cells (placed : Placed) : Cells Fields :=
  (placed.address, .bucket placed.fields) :: blockCell placed.key

end Placed

def layout : Layout Fields Placed := ⟨Placed.address, Placed.cells⟩

def Answers.Fresh (answers : Answers) (memory : Memory) : Prop :=
  Internal.Fresh memory answers.bucket ∧ Internal.Fresh memory answers.key ∧
    answers.bucket ≠ answers.key

instance (answers : Answers) (memory : Memory) : Decidable (answers.Fresh memory) :=
  inferInstanceAs (Decidable (_ ∧ _ ∧ _))

section Bucket

variable {memory : Memory} {placed : Placed} {frame : Cells Fields} {key : List UInt8}

theorem placed_fields (h : Exactly memory (placed.cells ++ frame)) :
    memory.fields (some placed.address) = .ok placed.fields :=
  fields_eq h

theorem cells_key_perm (placed : Placed) (frame : Cells Fields) :
    (placed.cells ++ frame).Perm
      (blockCell placed.key ++ ((placed.address, .bucket placed.fields) :: frame)) := by
  rw [Placed.cells, List.cons_append]
  exact List.perm_middle.symm

theorem bucketNew_exactly (h : Exactly memory frame) (key : List UInt8) {answers : Answers}
    (hfresh : answers.Fresh memory) : ∃ (memory' : Memory) (placed : Placed),
      Memory.bucketNew memory key answers = .ok (memory', placed.address) ∧
        placed.bucket = bucketNew key ∧ Exactly memory' (placed.cells ++ frame) := by
  obtain ⟨hbucket, hkey, hne⟩ := hfresh
  obtain ⟨a, hbucket, ha⟩ := fresh_iff.mp hbucket
  obtain ⟨k, hkey, hk⟩ := fresh_iff.mp hkey
  rw [hbucket, hkey, ne_eq, Option.some.injEq] at hne
  obtain ⟨memory', hattach, hexactly⟩ := attach_cell (h.insert ha (.bucket ⟨0, none⟩))
    (Exactly.insert_of_ne hk (Ne.symm hne)) key
    (.exit "bucket_new" "could not allocate bucket.key to the heap")
    fun block _ => ⟨key.length, some block⟩
  refine ⟨memory', ⟨a, key.length, copyAt k key, ?_⟩, ?_, ?_, ?_⟩
  · rw [copyAt_snd]
    exact length_duplicate key
  · simp only [Memory.bucketNew, hbucket, hkey, hattach, bind, Except.bind]
    rfl
  · simp only [Placed.bucket, copyAt_snd]
    rfl
  · have hfields : (if key.length > 0 then ⟨key.length, some k⟩ else ⟨0, none⟩ : Fields) =
        ⟨key.length, (copyAt k key).map Prod.fst⟩ := by
      cases key <;> simp [copyAt, duplicate]
    rw [hfields] at hexactly
    exact hexactly

theorem bucketHaskey_eq (h : Exactly memory (placed.cells ++ frame)) (key : List UInt8) :
    Memory.bucketHaskey memory key placed.address = .ok (bucketHaskey placed.bucket key) := by
  rw [Memory.bucketHaskey, placed_fields h]
  exact hasKey_cell (h.perm (cells_key_perm placed frame)) placed.keylen_eq key

theorem bucketKey_exactly (h : Exactly memory (placed.cells ++ frame)) (size : Option Nat)
    {b : Addr} (hb : b ∉ memory) :
    match bucketKey placed.bucket size with
    | .ok (bytes, n) => ∃ memory' : Memory,
        Memory.bucketKey memory placed.address size (some b) = .ok (memory', some b, n) ∧
          Exactly memory' ((b, .block bytes) :: (placed.cells ++ frame))
    | .error e => Memory.bucketKey memory placed.address size (some b) = .error e := by
  have hblock := block_cell (h.perm (cells_key_perm placed frame))
  simp only [Memory.bucketKey, placed_fields h, Placed.fields, hblock, bind, Except.bind,
    bucketKey, Placed.bucket, Option.map_eq_none_iff]
  by_cases hkey : placed.key = none
  · simp only [if_pos hkey]
  · simp only [if_neg hkey]
    cases memcpyFrom (placed.key.map Prod.snd) placed.keylen with
    | error e => rfl
    | ok bytes =>
        cases size with
        | none => rfl
        | some n => exact ⟨_, rfl, h.insert hb _⟩

end Bucket

section Operations

variable {hash : List UInt8 → UInt64 → UInt64} {memory : Memory} {placement : Placement Placed}
  {frame : Cells Fields} {key : List UInt8}

def contents (placement : Placement Placed) : SetT :=
  placement.table.map Placed.bucket

theorem placed_front_perm (placement : Placement Placed) (frame : Cells Fields) {j : Nat}
    {placed : Placed} (hplaced : placement.table.bucket j = some placed) :
    (placement.cells layout ++ frame).Perm (placed.cells ++
      ((placement.array, .array (placement.entries layout)) ::
        (placement.others layout j ++ frame))) := by
  have hperm := bucket_front_perm layout placement frame (Table.lt_of_bucket hplaced)
  rwa [hplaced] at hperm

theorem bucketDestroy_exactly (memory : Memory) (placement : Placement Placed) (j : Nat)
    (placed : Placed) (h : Exactly memory (placement.cells layout ++ frame))
    (hplaced : placement.table.bucket j = some placed) :
    ∃ memory', Memory.bucketDestroy memory (some placement.array) j = .ok memory' ∧
      Exactly memory' ((placement.put j none).cells layout ++ frame) := by
  have hj := Table.lt_of_bucket hplaced
  have hcells := h.perm (placed_front_perm placement frame hplaced)
  have hentry := entry_eq h hj
  rw [hplaced, Option.map_some] at hentry
  have haddress : layout.address placed = placed.address := rfl
  rw [haddress] at hentry
  obtain ⟨memory₁, hfree₁, h₁⟩ := freeBlock_cell (hcells.perm (cells_key_perm placed _))
  obtain ⟨memory₂, hset₂, h₂⟩ := setFields_cell h₁ fun fields => { fields with key := none }
  obtain ⟨memory₃, hfree₃, h₃⟩ := free_cell h₂
  obtain ⟨memory₄, hset₄, h₄⟩ := exactly_put layout hj none h₃
  refine ⟨memory₄, ?_, h₄⟩
  have hkey : placed.fields.key = placed.key.map Prod.fst := rfl
  simp only [Memory.bucketDestroy, hentry, placed_fields hcells, hkey, hfree₁, hset₂, hfree₃,
    bind, Except.bind]
  exact hset₄

theorem contents_put (placement : Placement Placed) (j : Nat) (entry : Option Placed) :
    contents (placement.put j entry) =
      (contents placement).put j (entry.map Placed.bucket) :=
  Table.map_put _ _ _ _

theorem setNew_exactly (h : Exactly memory frame) {a array : Addr} (ha : a ∉ memory)
    (harray : array ∉ memory) (hne : array ≠ a) (size : UInt64) :
    ∃ (memory' : Memory) (placement : Placement Placed),
      Memory.setNew memory size (some a) (some array) = .ok (memory', a) ∧
      placement.address = a ∧ contents placement = setNew size ∧
      Exactly memory' (placement.cells layout ++ frame) := by
  obtain ⟨memory', hnew, hexactly⟩ := tableNew_exactly h ha harray hne size
  exact ⟨memory', ⟨a, array, Table.new size⟩, hnew, rfl, Table.map_new _ size, hexactly⟩

variable (h : Exactly memory (placement.cells layout ++ frame))

include h

theorem lookup_cases (hash : List UInt8 → UInt64 → UInt64) (key : List UInt8) :
    (Memory.search hash memory (some placement.address) key = .ok .full ∧
      ∀ {ρ : Type} (empty : Nat → ρ) (found : Nat → Bucket → ρ) (full : ρ),
        (contents placement).search (bucketHaskey · key) (hash key SEED) empty found full =
          full) ∨
    (∃ j, j < placement.table.size.toNat ∧ placement.table.bucket j = none ∧
      Memory.search hash memory (some placement.address) key = .ok (.empty j) ∧
      ∀ {ρ : Type} (empty : Nat → ρ) (found : Nat → Bucket → ρ) (full : ρ),
        (contents placement).search (bucketHaskey · key) (hash key SEED) empty found full =
          empty j) ∨
    (∃ j placed, placement.table.bucket j = some placed ∧
      Memory.search hash memory (some placement.address) key =
        .ok (.found j placed.address) ∧
      ∀ {ρ : Type} (empty : Nat → ρ) (found : Nat → Bucket → ρ) (full : ρ),
        (contents placement).search (bucketHaskey · key) (hash key SEED) empty found full =
          found j placed.bucket) := by
  have hkey : ∀ j placed, placement.table.bucket j = some placed →
      Memory.bucketHaskey memory key (layout.address placed) =
        .ok (bucketHaskey placed.bucket key) :=
    fun j placed hplaced =>
      bucketHaskey_eq (h.perm (placed_front_perm placement frame hplaced)) key
  exact place_cases Placed.bucket h (bucketHaskey_iff · key) hkey (hash key SEED)

theorem setDestroy_exactly :
    ∃ memory', Memory.setDestroy memory (some placement.address) = .ok memory' ∧
      Exactly memory' frame :=
  tableDestroy_exactly bucketDestroy_exactly h

variable (hash key)

theorem setExists_exactly : Memory.setExists hash memory (some placement.address) key =
    .ok (setExists hash (contents placement) key) := by
  rw [Memory.setExists, setExists]
  rcases lookup_cases h hash key with
    ⟨hplace, hat⟩ | ⟨j, _, _, hplace, hat⟩ | ⟨j, placed, _, hplace, hat⟩
  · rw [hplace, hat]
    rfl
  · rw [hplace, hat]
    rfl
  · rw [hplace, hat]
    rfl

theorem setGet_exactly (size : Option Nat) {b : Addr} (hb : b ∉ memory) :
    match setGet hash (contents placement) key size with
    | .ok (some bytes, n) => ∃ memory' : Memory,
        Memory.setGet hash memory (some placement.address) key size (some b) =
          .ok (memory', some b, n) ∧
        Exactly memory' ((b, .block bytes) :: (placement.cells layout ++ frame))
    | .ok (none, n) => Memory.setGet hash memory (some placement.address) key size (some b) =
        .ok (memory, none, n)
    | .error e => Memory.setGet hash memory (some placement.address) key size (some b) =
        .error e := by
  simp only [setGet, Memory.setGet]
  rcases lookup_cases h hash key with
    ⟨hplace, hat⟩ | ⟨j, _, _, hplace, hat⟩ | ⟨j, placed, hplaced, hplace, hat⟩
  · rw [hplace, hat]
    rfl
  · rw [hplace, hat]
    rfl
  · have hperm := placed_front_perm placement frame hplaced
    have hread := bucketKey_exactly (h.perm hperm) size hb
    rw [hplace, hat]
    simp only [bind, Except.bind]
    cases hcontent : bucketKey placed.bucket size with
    | error e =>
        rw [hcontent] at hread
        simp only [hread, Except.map]
    | ok read =>
        rw [hcontent] at hread
        obtain ⟨memory', heq, hexactly⟩ := hread
        simp only [heq, Except.map]
        exact ⟨memory', rfl, hexactly.perm (hperm.symm.cons _)⟩

theorem setAdd_exactly {answers : Answers} (hfresh : answers.Fresh memory) :
    ∃ (memory' : Memory) (placement' : Placement Placed),
      Memory.setAdd hash memory (some placement.address) key answers =
        .ok (memory', (setAdd hash (contents placement) key).2) ∧
      placement'.address = placement.address ∧
      contents placement' = (setAdd hash (contents placement) key).1 ∧
      Exactly memory' (placement'.cells layout ++ frame) := by
  have hheader : memory.header (some placement.address) =
      .ok (some placement.array, placement.table.size) := header_eq h
  simp only [setAdd, Memory.setAdd, hheader, bind, Except.bind]
  rcases lookup_cases h hash key with
    ⟨hplace, hat⟩ | ⟨j, hj, hempty, hplace, hat⟩ | ⟨j, placed, hplaced, hplace, hat⟩
  · rw [hplace, hat]
    exact ⟨memory, placement, rfl, rfl, rfl, h⟩
  · rw [hplace, hat]
    have hfront := h.perm (bucket_front_perm layout placement frame hj)
    rw [hempty, Placement.entryCells, Option.elim_none, List.nil_append] at hfront
    obtain ⟨memory₁, placed, hnew, hbucket, h₁⟩ := bucketNew_exactly hfront key hfresh
    obtain ⟨memory₂, hset, h₂⟩ := exactly_put layout hj (some placed) h₁
    have haddress : (some placed).map layout.address = some placed.address := rfl
    rw [haddress] at hset
    refine ⟨memory₂, placement.put j (some placed), ?_, rfl, ?_, h₂⟩
    · simp only [hnew, hset]
      rfl
    · rw [contents_put, Option.map_some, hbucket]
  · rw [hplace, hat]
    exact ⟨memory, placement, rfl, rfl, rfl, h⟩

theorem setRemove_exactly : ∃ (memory' : Memory) (placement' : Placement Placed),
    Memory.setRemove hash memory (some placement.address) key =
        .ok (memory', (setRemove hash (contents placement) key).2) ∧
      placement'.address = placement.address ∧
      contents placement' = (setRemove hash (contents placement) key).1 ∧
      Exactly memory' (placement'.cells layout ++ frame) := by
  have hheader : memory.header (some placement.address) =
      .ok (some placement.array, placement.table.size) := header_eq h
  simp only [setRemove, Memory.setRemove, hheader, bind, Except.bind]
  rcases lookup_cases h hash key with
    ⟨hplace, hat⟩ | ⟨j, _, _, hplace, hat⟩ | ⟨j, placed, hplaced, hplace, hat⟩
  · rw [hplace, hat]
    exact ⟨memory, placement, rfl, rfl, rfl, h⟩
  · rw [hplace, hat]
    exact ⟨memory, placement, rfl, rfl, rfl, h⟩
  · rw [hplace, hat]
    obtain ⟨memory', heq, hexactly⟩ := bucketDestroy_exactly memory placement j placed h hplaced
    refine ⟨memory', placement.put j none, ?_, rfl, contents_put placement j none, hexactly⟩
    simp only [heq]
    rfl

end Operations

end Doctrina.Set
