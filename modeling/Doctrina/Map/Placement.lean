import Doctrina.Map.Objects
/-!
# The objects of a map

A `Placed` bucket says where its object and its blocks are; without the
addresses it is a bucket of `Map.Basic`.  One lemma for each function of
map.c: on the cells of a map and any frame it does what its namesake does on
the map, and leaves the cells of the map afterwards and the same frame.
-/

namespace Doctrina.Map

open Doctrina.Internal Doctrina.Lib.Cells

/-- A bucket with the addresses of its object, its key and its value. -/
structure Placed where
  address : Addr
  keylen : Nat
  size : Nat
  key : Option (Addr × List UInt8)
  data : Option (Addr × List UInt8)
  keylen_eq : keylen = ((key.map Prod.snd).getD []).length

namespace Placed

def bucket (placed : Placed) : Bucket where
  keylen := placed.keylen
  size := placed.size
  key := placed.key.map Prod.snd
  data := placed.data.map Prod.snd
  keylen_eq := placed.keylen_eq

def fields (placed : Placed) : Fields where
  keylen := placed.keylen
  size := placed.size
  key := placed.key.map Prod.fst
  data := placed.data.map Prod.fst

def cells (placed : Placed) : Cells Fields :=
  (placed.address, .bucket placed.fields) ::
    (blockCell placed.key ++ blockCell placed.data)

end Placed

def layout : Layout Fields Placed := ⟨Placed.address, Placed.cells⟩

def Answers.Fresh (answers : Answers) (memory : Memory) : Prop :=
  Internal.Fresh memory answers.bucket ∧ Internal.Fresh memory answers.key ∧
    Internal.Fresh memory answers.data ∧ answers.bucket ≠ answers.key ∧
      answers.bucket ≠ answers.data ∧ answers.key ≠ answers.data

instance (answers : Answers) (memory : Memory) : Decidable (answers.Fresh memory) :=
  inferInstanceAs (Decidable (_ ∧ _ ∧ _ ∧ _ ∧ _ ∧ _))

section Bucket

variable {memory : Memory} {placed : Placed} {frame : Cells Fields} {key data : List UInt8}

theorem placed_fields (h : Exactly memory (placed.cells ++ frame)) :
    memory.fields (some placed.address) = .ok placed.fields :=
  fields_eq h

theorem cells_append (placed : Placed) (frame : Cells Fields) :
    placed.cells ++ frame = (placed.address, .bucket placed.fields) ::
      (blockCell placed.key ++ (blockCell placed.data ++ frame)) := by
  rw [Placed.cells, List.cons_append, List.append_assoc]

theorem cells_key_perm (placed : Placed) (frame : Cells Fields) :
    (placed.cells ++ frame).Perm (blockCell placed.key ++
      ((placed.address, .bucket placed.fields) :: (blockCell placed.data ++ frame))) := by
  rw [cells_append]
  exact List.perm_middle.symm

theorem data_front_perm (cell : Addr × Object Fields) (key data frame : Cells Fields) :
    (cell :: (key ++ (data ++ frame))).Perm (data ++ (cell :: (key ++ frame))) := by
  calc cell :: (key ++ (data ++ frame))
      |>.Perm (cell :: (data ++ (key ++ frame))) := by
        apply List.Perm.cons
        rw [← List.append_assoc, ← List.append_assoc]
        exact List.perm_append_comm.append_right frame
    _ |>.Perm (data ++ (cell :: (key ++ frame))) := List.perm_middle.symm

theorem cells_data_perm (placed : Placed) (frame : Cells Fields) :
    (placed.cells ++ frame).Perm (blockCell placed.data ++
      ((placed.address, .bucket placed.fields) :: (blockCell placed.key ++ frame))) := by
  rw [cells_append]
  exact data_front_perm _ _ _ _

theorem bucketNew_exactly (h : Exactly memory frame) (key data : List UInt8) {answers : Answers}
    (hfresh : answers.Fresh memory) : ∃ (memory' : Memory) (placed : Placed),
      Memory.bucketNew memory key data answers = .ok (memory', placed.address) ∧
        placed.bucket = bucketNew key data ∧ Exactly memory' (placed.cells ++ frame) := by
  obtain ⟨hbucket, hkey, hdata, hak, had, hkd⟩ := hfresh
  obtain ⟨a, hbucket, ha⟩ := fresh_iff.mp hbucket
  obtain ⟨k, hkey, hk⟩ := fresh_iff.mp hkey
  obtain ⟨d, hdata, hd⟩ := fresh_iff.mp hdata
  rw [hbucket, hkey, ne_eq, Option.some.injEq] at hak
  rw [hbucket, hdata, ne_eq, Option.some.injEq] at had
  rw [hkey, hdata, ne_eq, Option.some.injEq] at hkd
  have hobject := h.insert ha (.bucket ⟨0, 0, none, none⟩)
  obtain ⟨memory₁, hattach₁, hexactly₁⟩ := attach_cell hobject
    (Exactly.insert_of_ne hk (Ne.symm hak)) key
    (.exit "bucket_new" "could not allocate bucket.key to the heap")
    fun block fields => { fields with key := some block, keylen := key.length }
  have hd₁ : d ∉ memory₁ := by
    rw [hexactly₁.mem_iff]
    rw [h.mem_iff] at hd
    by_cases hlen : key.length > 0
    · simp [copyAt, duplicate, hlen, hd, Ne.symm had, Ne.symm hkd]
    · simp [copyAt, duplicate, hlen, hd, Ne.symm had]
  obtain ⟨memory₂, hattach₂, hexactly₂⟩ := attach_cell hexactly₁ hd₁ data
    (.exit "bucket_new" "could not allocate bucket.data to the heap")
    fun block fields => { fields with data := some block, size := data.length }
  refine ⟨memory₂, ⟨a, key.length, data.length, copyAt k key, copyAt d data, ?_⟩, ?_, ?_, ?_⟩
  · rw [copyAt_snd]
    exact length_duplicate key
  · simp only [Memory.bucketNew, hbucket, hkey, hdata, hattach₁, hattach₂, bind, Except.bind]
    rfl
  · simp only [Placed.bucket, copyAt_snd]
    rfl
  · have hfields : (if data.length > 0 then
          { (if key.length > 0 then ⟨key.length, 0, some k, none⟩ else ⟨0, 0, none, none⟩ : Fields)
            with data := some d, size := data.length }
        else if key.length > 0 then ⟨key.length, 0, some k, none⟩ else ⟨0, 0, none, none⟩) =
        (⟨key.length, data.length, (copyAt k key).map Prod.fst,
          (copyAt d data).map Prod.fst⟩ : Fields) := by
      cases key <;> cases data <;> simp [copyAt, duplicate]
    rw [hfields] at hexactly₂
    refine hexactly₂.perm ?_
    rw [Placed.cells, List.cons_append, List.append_assoc, Placed.fields]
    apply List.Perm.cons
    rw [← List.append_assoc, ← List.append_assoc]
    exact List.perm_append_comm.append_right frame

theorem bucketHaskey_eq (h : Exactly memory (placed.cells ++ frame)) (key : List UInt8) :
    Memory.bucketHaskey memory key placed.address = .ok (bucketHaskey placed.bucket key) := by
  rw [Memory.bucketHaskey, placed_fields h]
  exact hasKey_cell (h.perm (cells_key_perm placed frame)) placed.keylen_eq key

theorem bucketData_exactly (h : Exactly memory (placed.cells ++ frame)) {b : Addr}
    (hb : b ∉ memory) :
    match bucketData placed.bucket with
    | .ok bytes => ∃ memory' : Memory,
        Memory.bucketData memory placed.address (some b) = .ok (memory', some b) ∧
          Exactly memory' ((b, .block bytes) :: (placed.cells ++ frame))
    | .error e => Memory.bucketData memory placed.address (some b) = .error e := by
  have hblock := block_cell (h.perm (cells_data_perm placed frame))
  simp only [Memory.bucketData, placed_fields h, Placed.fields, hblock, bind, Except.bind,
    bucketData, Placed.bucket, Option.map_eq_none_iff]
  by_cases hdata : placed.data = none
  · simp only [if_pos hdata]
  · simp only [if_neg hdata]
    cases memcpyFrom (placed.data.map Prod.snd) placed.size with
    | error e => rfl
    | ok bytes => exact ⟨_, rfl, h.insert hb _⟩

/-- The bucket with another value. -/
def Placed.withData (placed : Placed) (data : Option (Addr × List UInt8)) : Placed :=
  { placed with data }

theorem withData_exactly {data' : Option (Addr × List UInt8)}
    (h : Exactly memory (blockCell data' ++
      ((placed.address, .bucket (placed.withData data').fields) ::
        (blockCell placed.key ++ frame)))) :
    Exactly memory ((placed.withData data').cells ++ frame) :=
  h.perm (cells_data_perm (placed.withData data') frame).symm

theorem bucketResize_exactly (h : Exactly memory (placed.cells ++ frame)) (size : Nat)
    {answer : Option Addr} (hanswer : Resized memory (placed.data.map Prod.fst) answer) :
    match bucketResize placed.bucket size with
    | .ok buffer => ∃ (memory' : Memory) (data' : Option (Addr × List UInt8)),
        Memory.bucketResize memory placed.address size answer = .ok memory' ∧
          data'.map Prod.snd = buffer ∧
          Exactly memory' ((placed.withData data').cells ++ frame)
    | .error e => Memory.bucketResize memory placed.address size answer = .error e := by
  have hfields : placed.fields.size = placed.size := rfl
  have hbucket : placed.bucket.size = placed.size := rfl
  simp only [Memory.bucketResize, placed_fields h, hfields, bind, Except.bind, bucketResize,
    hbucket]
  by_cases hsize : size = placed.size
  · simp only [hsize, ne_eq, not_true_eq_false, if_false]
    exact ⟨memory, placed.data, rfl, rfl, h⟩
  · rw [cells_append] at h
    obtain ⟨memory₁, hset₁, hexactly₁⟩ := setFields_cell h fun fields =>
      { fields with data := none }
    have hanswer₁ : Resized memory₁ (placed.data.map Prod.fst) answer := by
      rcases hanswer with hfresh | hold
      · obtain ⟨b, rfl, hb⟩ := fresh_iff.mp hfresh
        refine .inl (fresh_iff.mpr ⟨b, rfl, fun hin => hb ?_⟩)
        rw [h.mem_iff]
        exact hexactly₁.mem_iff.mp hin
      · exact .inr hold
    have hfront := hexactly₁.perm (data_front_perm _ _ _ _)
    have hrealloc := reallocate_cell hfront size hanswer₁
    have hdata : placed.bucket.data = placed.data.map Prod.snd := rfl
    have hpointer : placed.fields.data = placed.data.map Prod.fst := rfl
    simp only [ne_eq, hsize, not_false_eq_true, if_true, hset₁, hdata, hpointer]
    cases hcontent : realloc (placed.data.map Prod.snd) size with
    | none =>
        rw [hcontent] at hrealloc
        obtain ⟨memory₂, heq⟩ := hrealloc
        simp only [heq]
    | some bytes =>
        rw [hcontent] at hrealloc
        obtain ⟨memory₂, b, _, heq, hexactly₂⟩ := hrealloc
        obtain ⟨memory₃, hset₃, hexactly₃⟩ :=
          setFields_cell (hexactly₂.perm (List.Perm.swap _ _ _)) fun fields =>
            { fields with data := some b }
        simp only [heq]
        refine ⟨memory₃, some (b, bytes), hset₃, rfl, withData_exactly ?_⟩
        exact hexactly₃.perm (List.Perm.swap _ _ _)

theorem copyTo_exactly (h : Exactly memory (placed.cells ++ frame)) (bytes : List UInt8) :
    match memcpyTo placed.bucket.data bytes with
    | .ok buffer => ∃ (memory' : Memory) (data' : Option (Addr × List UInt8)),
        memory.copyTo placed.fields.data 0 bytes = .ok memory' ∧
          data'.map Prod.snd = buffer ∧
          Exactly memory' ((placed.withData data').cells ++ frame)
    | .error e => memory.copyTo placed.fields.data 0 bytes = .error e := by
  have hfront := h.perm (cells_data_perm placed frame)
  have hpointer : placed.fields.data = placed.data.map Prod.fst := rfl
  have hbuffer : placed.bucket.data = placed.data.map Prod.snd := rfl
  rw [hpointer, hbuffer]
  cases hdata : placed.data with
  | none =>
      simp only [Option.map_none, memcpyTo, Objects.copyTo, Objects.block, bind, Except.bind]
      by_cases hnil : bytes = []
      · simp only [if_pos hnil]
        refine ⟨memory, none, rfl, rfl, ?_⟩
        have hsame : placed.withData none = placed := by
          rw [Placed.withData, ← hdata]
        rwa [hsame]
      · simp only [if_neg hnil]
  | some block =>
      rw [hdata] at hfront
      have hcopy := copyTo_cell hfront 0 bytes
      simp only [Option.map_some, memcpyTo]
      cases hbytes : memcpyAt block.2 0 bytes with
      | error e =>
          rw [hbytes] at hcopy
          exact hcopy
      | ok buffer =>
          rw [hbytes] at hcopy
          obtain ⟨memory', heq, hexactly⟩ := hcopy
          have hfields : (placed.withData (some (block.1, buffer))).fields = placed.fields := by
            simp [Placed.fields, Placed.withData, hdata]
          refine ⟨memory', some (block.1, buffer), heq, rfl, withData_exactly ?_⟩
          rw [hfields]
          exact hexactly

theorem bucketUpdate_exactly (h : Exactly memory (placed.cells ++ frame)) (bytes : List UInt8)
    {answer : Option Addr} (hanswer : Resized memory (placed.data.map Prod.fst) answer) :
    match bucketUpdate placed.bucket bytes with
    | .ok bucket => ∃ (memory' : Memory) (placed' : Placed),
        Memory.bucketUpdate memory placed.address bytes answer = .ok memory' ∧
          placed'.bucket = bucket ∧ placed'.address = placed.address ∧
          Exactly memory' (placed'.cells ++ frame)
    | .error e => Memory.bucketUpdate memory placed.address bytes answer = .error e := by
  have hresize := bucketResize_exactly h bytes.length hanswer
  simp only [bucketUpdate, Memory.bucketUpdate, bind, Except.bind]
  cases hcontent : bucketResize placed.bucket bytes.length with
  | error e =>
      rw [hcontent] at hresize
      simp only [hresize]
  | ok buffer =>
      rw [hcontent] at hresize
      obtain ⟨memory₁, data₁, heq₁, rfl, hexactly₁⟩ := hresize
      have hcopy := copyTo_exactly hexactly₁ bytes
      have hbuffer : (placed.withData data₁).bucket.data = data₁.map Prod.snd := rfl
      have hfields : memory₁.fields (some placed.address) =
          .ok (placed.withData data₁).fields := placed_fields hexactly₁
      rw [hbuffer] at hcopy
      simp only [heq₁, hfields]
      cases hcontent₂ : memcpyTo (data₁.map Prod.snd) bytes with
      | error e =>
          rw [hcontent₂] at hcopy
          exact hcopy
      | ok buffer₂ =>
          rw [hcontent₂] at hcopy
          obtain ⟨memory₂, data₂, heq₂, rfl, hexactly₂⟩ := hcopy
          exact ⟨memory₂, (placed.withData data₁).withData data₂, heq₂, rfl, rfl, hexactly₂⟩

end Bucket

section Operations

variable {hash : List UInt8 → UInt64 → UInt64} {memory : Memory} {placement : Placement Placed}
  {frame : Cells Fields} {key data : List UInt8}

def contents (placement : Placement Placed) : MapT :=
  placement.table.map Placed.bucket

theorem placed_front_perm (placement : Placement Placed) (frame : Cells Fields) {j : Nat}
    {placed : Placed} (hplaced : placement.table.bucket j = some placed) :
    (placement.cells layout ++ frame).Perm (placed.cells ++
      ((placement.array, .array (placement.entries layout)) ::
        (placement.others layout j ++ frame))) := by
  have hperm := bucket_front_perm layout placement frame (Table.lt_of_bucket hplaced)
  rwa [hplaced] at hperm

theorem bucketDestroy_exactly (memory : Memory) (placement : Placement Placed) (j : Nat)
    (placed : Placed) (h : Exactly memory (placement.cells layout ++ frame))
    (hplaced : placement.table.bucket j = some placed) :
    ∃ memory', Memory.bucketDestroy memory (some placement.array) j = .ok memory' ∧
      Exactly memory' ((placement.put j none).cells layout ++ frame) := by
  have hj := Table.lt_of_bucket hplaced
  have hcells := h.perm (placed_front_perm placement frame hplaced)
  have hentry := entry_eq h hj
  rw [hplaced, Option.map_some] at hentry
  have haddress : layout.address placed = placed.address := rfl
  rw [haddress] at hentry
  obtain ⟨memory₁, hfree₁, h₁⟩ := freeBlock_cell (hcells.perm (cells_key_perm placed _))
  obtain ⟨memory₂, hset₂, h₂⟩ := setFields_cell h₁ fun fields => { fields with key := none }
  obtain ⟨memory₃, hfree₃, h₃⟩ := freeBlock_cell (h₂.perm List.perm_middle.symm)
  obtain ⟨memory₄, hset₄, h₄⟩ := setFields_cell h₃ fun fields => { fields with data := none }
  obtain ⟨memory₅, hfree₅, h₅⟩ := free_cell h₄
  obtain ⟨memory₆, hset₆, h₆⟩ := exactly_put layout hj none h₅
  refine ⟨memory₆, ?_, h₆⟩
  have hkey : placed.fields.key = placed.key.map Prod.fst := rfl
  have hdata : placed.fields.data = placed.data.map Prod.fst := rfl
  simp only [Memory.bucketDestroy, hentry, placed_fields hcells, hkey, hfree₁, hset₂,
    fields_eq h₂, hdata, hfree₃, hset₄, hfree₅, bind, Except.bind]
  exact hset₆

theorem contents_put (placement : Placement Placed) (j : Nat) (entry : Option Placed) :
    contents (placement.put j entry) =
      (contents placement).put j (entry.map Placed.bucket) :=
  Table.map_put _ _ _ _

theorem mapNew_exactly (h : Exactly memory frame) {a array : Addr} (ha : a ∉ memory)
    (harray : array ∉ memory) (hne : array ≠ a) (size : UInt64) :
    ∃ (memory' : Memory) (placement : Placement Placed),
      Memory.mapNew memory size (some a) (some array) = .ok (memory', a) ∧
      placement.address = a ∧ contents placement = mapNew size ∧
      Exactly memory' (placement.cells layout ++ frame) := by
  obtain ⟨memory', hnew, hexactly⟩ := tableNew_exactly h ha harray hne size
  exact ⟨memory', ⟨a, array, Table.new size⟩, hnew, rfl, Table.map_new _ size, hexactly⟩

variable (h : Exactly memory (placement.cells layout ++ frame))

include h

theorem lookup_cases (hash : List UInt8 → UInt64 → UInt64) (key : List UInt8) :
    (Memory.search hash memory (some placement.address) key = .ok .full ∧
      ∀ {ρ : Type} (empty : Nat → ρ) (found : Nat → Bucket → ρ) (full : ρ),
        (contents placement).search (bucketHaskey · key) (hash key SEED) empty found full =
          full) ∨
    (∃ j, j < placement.table.size.toNat ∧ placement.table.bucket j = none ∧
      Memory.search hash memory (some placement.address) key = .ok (.empty j) ∧
      ∀ {ρ : Type} (empty : Nat → ρ) (found : Nat → Bucket → ρ) (full : ρ),
        (contents placement).search (bucketHaskey · key) (hash key SEED) empty found full =
          empty j) ∨
    (∃ j placed, placement.table.bucket j = some placed ∧
      Memory.search hash memory (some placement.address) key =
        .ok (.found j placed.address) ∧
      ∀ {ρ : Type} (empty : Nat → ρ) (found : Nat → Bucket → ρ) (full : ρ),
        (contents placement).search (bucketHaskey · key) (hash key SEED) empty found full =
          found j placed.bucket) := by
  have hkey : ∀ j placed, placement.table.bucket j = some placed →
      Memory.bucketHaskey memory key (layout.address placed) =
        .ok (bucketHaskey placed.bucket key) :=
    fun j placed hplaced =>
      bucketHaskey_eq (h.perm (placed_front_perm placement frame hplaced)) key
  exact place_cases Placed.bucket h (bucketHaskey_iff · key) hkey (hash key SEED)

variable (hash key)

theorem mapExists_exactly : Memory.mapExists hash memory (some placement.address) key =
    .ok (mapExists hash (contents placement) key) := by
  rw [Memory.mapExists, mapExists]
  rcases lookup_cases h hash key with
    ⟨hplace, hat⟩ | ⟨j, _, _, hplace, hat⟩ | ⟨j, placed, _, hplace, hat⟩
  · rw [hplace, hat]
    rfl
  · rw [hplace, hat]
    rfl
  · rw [hplace, hat]
    rfl

theorem mapGet_exactly (size : Option Nat) {b : Addr} (hb : b ∉ memory) :
    match mapGet hash (contents placement) key size with
    | .ok (some bytes, n) => ∃ memory' : Memory,
        Memory.mapGet hash memory (some placement.address) key size (some b) =
          .ok (memory', some b, n) ∧
        Exactly memory' ((b, .block bytes) :: (placement.cells layout ++ frame))
    | .ok (none, n) => Memory.mapGet hash memory (some placement.address) key size (some b) =
        .ok (memory, none, n)
    | .error e => Memory.mapGet hash memory (some placement.address) key size (some b) =
        .error e := by
  cases size with
  | none => rfl
  | some size =>
      simp only [mapGet, Memory.mapGet]
      rcases lookup_cases h hash key with
        ⟨hplace, hat⟩ | ⟨j, _, _, hplace, hat⟩ | ⟨j, placed, hplaced, hplace, hat⟩
      · rw [hplace, hat]
        rfl
      · rw [hplace, hat]
        rfl
      · have hperm := placed_front_perm placement frame hplaced
        have hcells := h.perm hperm
        have hread := bucketData_exactly hcells hb
        have hsize : Memory.bucketSize memory placed.address = .ok placed.bucket.size := by
          rw [Memory.bucketSize, placed_fields hcells]
          rfl
        rw [hplace, hat]
        simp only [hsize, bind, Except.bind]
        cases hdata : bucketData placed.bucket with
        | error e =>
            rw [hdata] at hread
            simp only [hread, Except.map]
        | ok bytes =>
            rw [hdata] at hread
            obtain ⟨memory', heq, hexactly⟩ := hread
            simp only [heq, Except.map]
            exact ⟨memory', rfl, hexactly.perm (hperm.symm.cons _)⟩

theorem mapSet_exactly (data : List UInt8) {answers : Answers} (hfresh : answers.Fresh memory)
    (hresized : Resized memory (Memory.valueOf hash memory (some placement.address) key)
      answers.resized) :
    match mapSet hash (contents placement) key data with
    | .ok (after, result) => ∃ (memory' : Memory) (placement' : Placement Placed),
        Memory.mapSet hash memory (some placement.address) key data answers =
          .ok (memory', result) ∧
        placement'.address = placement.address ∧ contents placement' = after ∧
        Exactly memory' (placement'.cells layout ++ frame)
    | .error e => Memory.mapSet hash memory (some placement.address) key data answers =
        .error e := by
  have hheader : memory.header (some placement.address) =
      .ok (some placement.array, placement.table.size) := header_eq h
  simp only [mapSet, Memory.mapSet, hheader, bind, Except.bind]
  rcases lookup_cases h hash key with
    ⟨hplace, hat⟩ | ⟨j, hj, hempty, hplace, hat⟩ | ⟨j, placed, hplaced, hplace, hat⟩
  · rw [hplace, hat]
    exact ⟨memory, placement, rfl, rfl, rfl, h⟩
  · rw [hplace, hat]
    have hfront := h.perm (bucket_front_perm layout placement frame hj)
    rw [hempty, Placement.entryCells, Option.elim_none, List.nil_append] at hfront
    obtain ⟨memory₁, placed, hnew, hbucket, h₁⟩ := bucketNew_exactly hfront key data hfresh
    obtain ⟨memory₂, hset, h₂⟩ := exactly_put layout hj (some placed) h₁
    have haddress : (some placed).map layout.address = some placed.address := rfl
    rw [haddress] at hset
    refine ⟨memory₂, placement.put j (some placed), ?_, rfl, ?_, h₂⟩
    · simp only [hnew, hset]
      rfl
    · rw [contents_put, Option.map_some, hbucket]
  · have hperm := placed_front_perm placement frame hplaced
    have hcells := h.perm hperm
    have hvalue : Memory.valueOf hash memory (some placement.address) key =
        placed.data.map Prod.fst := by
      simp only [Memory.valueOf, hplace, placed_fields hcells]
      rfl
    rw [hvalue] at hresized
    have hupdate := bucketUpdate_exactly hcells data hresized
    rw [hplace, hat]
    cases hcontent : bucketUpdate placed.bucket data with
    | error e =>
        rw [hcontent] at hupdate
        simp only [hupdate, Except.map]
    | ok bucket =>
        rw [hcontent] at hupdate
        obtain ⟨memory', placed', heq, hbucket, haddress, hexactly⟩ := hupdate
        simp only [heq, Except.map]
        refine ⟨memory', placement.put j (some placed'), rfl, rfl, ?_, ?_⟩
        · rw [contents_put, Option.map_some, hbucket]
        · exact exactly_replace (Table.lt_of_bucket hplaced) hplaced haddress hexactly

theorem mapDel_exactly : ∃ (memory' : Memory) (placement' : Placement Placed),
    Memory.mapDel hash memory (some placement.address) key =
        .ok (memory', (mapDel hash (contents placement) key).2) ∧
      placement'.address = placement.address ∧
      contents placement' = (mapDel hash (contents placement) key).1 ∧
      Exactly memory' (placement'.cells layout ++ frame) := by
  have hheader : memory.header (some placement.address) =
      .ok (some placement.array, placement.table.size) := header_eq h
  simp only [mapDel, Memory.mapDel, hheader, bind, Except.bind]
  rcases lookup_cases h hash key with
    ⟨hplace, hat⟩ | ⟨j, _, _, hplace, hat⟩ | ⟨j, placed, hplaced, hplace, hat⟩
  · rw [hplace, hat]
    exact ⟨memory, placement, rfl, rfl, rfl, h⟩
  · rw [hplace, hat]
    exact ⟨memory, placement, rfl, rfl, rfl, h⟩
  · rw [hplace, hat]
    obtain ⟨memory', heq, hexactly⟩ := bucketDestroy_exactly memory placement j placed h hplaced
    refine ⟨memory', placement.put j none, ?_, rfl, contents_put placement j none, hexactly⟩
    simp only [heq]
    rfl

theorem mapDestroy_exactly :
    ∃ memory', Memory.mapDestroy memory (some placement.address) = .ok memory' ∧
      Exactly memory' frame :=
  tableDestroy_exactly bucketDestroy_exactly h

end Operations

end Doctrina.Map
