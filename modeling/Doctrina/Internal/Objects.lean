import Doctrina.Internal.Table
import Doctrina.Lib.Cells
import Doctrina.Store
/-!
# The objects of map.c and set.c

The bucket arrays of `Internal.Table` as the two files lay them out: a header
with a pointer to an array of pointers to buckets, which point to blocks of
bytes.  `Placement` says at which addresses the objects of a table are, and
`Placement.cells` lists them.  The functions that the files have in common are
written here once, for buckets with any fields.
-/

namespace Doctrina.Internal

open Doctrina.Lib.Cells

inductive Object (β : Type)
  | header (buckets : Option Addr) (size : UInt64)
  | array (entries : List (Option Addr))
  | bucket (fields : β)
  | block (bytes : List UInt8)

abbrev Objects (β : Type) : Type := Store (Object β)

abbrev Cells (β : Type) : Type := List (Addr × Object β)

variable {β P ρ : Type}

namespace Objects

def header (memory : Objects β) (pointer : Option Addr) : Except Fault (Option Addr × UInt64) := do
  match ← memory.load pointer with
  | .header buckets size => return (buckets, size)
  | _ => .error .badAddress

def array (memory : Objects β) (pointer : Option Addr) : Except Fault (List (Option Addr)) := do
  match ← memory.load pointer with
  | .array entries => return entries
  | _ => .error .badAddress

def fields (memory : Objects β) (pointer : Option Addr) : Except Fault β := do
  match ← memory.load pointer with
  | .bucket fields => return fields
  | _ => .error .badAddress

/-- The block behind a pointer, `none` behind NULL. -/
def block (memory : Objects β) : Option Addr → Except Fault (Option (List UInt8))
  | none => .ok none
  | some a => do
      match ← memory.load (some a) with
      | .block bytes => return some bytes
      | _ => .error .badAddress

/-- An assignment to fields of a bucket. -/
def setFields (memory : Objects β) (pointer : Option Addr) (f : β → β) :
    Except Fault (Objects β) := do
  let fields ← memory.fields pointer
  memory.modify pointer fun _ => .bucket (f fields)

/-- `buckets[j]`. -/
def entry (memory : Objects β) (buckets : Option Addr) (j : Nat) :
    Except Fault (Option Addr) := do
  let entries ← memory.array buckets
  match entries[j]? with
  | none => .error .outOfBounds
  | some entry => return entry

/-- The assignment `buckets[j] = entry`. -/
def setEntry (memory : Objects β) (buckets : Option Addr) (j : Nat) (entry : Option Addr) :
    Except Fault (Objects β) := do
  let entries ← memory.array buckets
  if j < entries.length then memory.modify buckets fun _ => .array (entries.set j entry)
  else .error .outOfBounds

/-- `free` of a block, or of NULL. -/
def freeBlock (memory : Objects β) : Option Addr → Except Fault (Objects β)
  | none => .ok memory
  | some a => memory.free a

/-- The copy that a `bucket_new` makes of an argument, unless it is empty. -/
def attach (memory : Objects β) (bucket : Addr) (bytes : List UInt8) (answer : Option Addr)
    (noMemory : Fault) (record : Addr → β → β) : Except Fault (Objects β) :=
  if bytes.length > 0 then
    match answer with
    | none => .error noMemory
    | some block => setFields (memory.insert block (.block bytes)) (some bucket) (record block)
  else .ok memory

/-- `realloc` of a block or of NULL: the bytes up to the smaller size are kept,
and those behind them stand for any.  A block resized to nothing is freed. -/
def reallocate (memory : Objects β) (old : Option Addr) (size : Nat) (answer : Option Addr) :
    Except Fault (Objects β × Option Addr) := do
  match ← memory.block old, answer with
  | none, none => return (memory, none)
  | none, some a => return (memory.insert a (.block (List.replicate size 0)), some a)
  | some bytes, answer =>
      if size = 0 then
        let memory ← memory.freeBlock old
        return (memory, none)
      else
        match answer with
        | none => return (memory, none)
        | some a =>
            let memory ← memory.freeBlock old
            return (memory.insert a
              (.block (bytes.take size ++ List.replicate (size - bytes.length) 0)), some a)

/-- `memcpy` into a block from an offset on. -/
def copyTo (memory : Objects β) (pointer : Option Addr) (offset : Nat) (data : List UInt8) :
    Except Fault (Objects β) := do
  match pointer, ← memory.block pointer with
  | some a, some bytes =>
      let bytes ← memcpyAt bytes offset data
      memory.modify (some a) fun _ => .block bytes
  | _, _ => if data = [] then return memory else .error .nullPointer

/-- `calloc`, whose answer is not checked, and `memcpy` to what it returned. -/
def copyOut (memory : Objects β) (bytes : List UInt8) (answer : Option Addr) :
    Except Fault (Objects β × Option Addr) :=
  match answer with
  | none => if bytes = [] then .ok (memory, none) else .error .nullPointer
  | some a => .ok (memory.insert a (.block bytes), some a)

/-- `keylen == key.length && memcmp(pointer, key, key.length) == 0`; comparing
no bytes gives 0 whatever the pointer. -/
def hasKey (memory : Objects β) (keylen : Nat) (pointer : Option Addr) (key : List UInt8) :
    Except Fault Bool :=
  if keylen = key.length then do
    let block ← memory.block pointer
    let bytes ← memcpyFrom block key.length
    return decide (bytes = key)
  else .ok false

end Objects

/-- The answer of an allocation is an address at which nothing is live. -/
def Fresh (memory : Objects β) : Option Addr → Prop
  | none => False
  | some a => a ∉ memory

instance (memory : Objects β) : DecidablePred (Fresh memory)
  | none => .isFalse id
  | some a => inferInstanceAs (Decidable (a ∉ memory))

/-- The answer of `realloc` is fresh, or the block that it resizes. -/
def Resized (memory : Objects β) (old answer : Option Addr) : Prop :=
  Fresh memory answer ∨ answer ≠ none ∧ answer = old

instance (memory : Objects β) (old answer : Option Addr) : Decidable (Resized memory old answer) :=
  inferInstanceAs (Decidable (_ ∨ _))

inductive Place
  | empty (j : Nat)
  | found (j : Nat) (bucket : Addr)
  | full
  deriving DecidableEq

/-- `map_new` and `set_new`, with the answers of `calloc` for the header and
the array. -/
def tableNew (noTable noBuckets : Fault) (memory : Objects β) (size : UInt64)
    (table buckets : Option Addr) : Except Fault (Objects β × Addr) :=
  match table with
  | none => .error noTable
  | some a =>
      let memory : Objects β := memory.insert a (.header none 0)
      match buckets with
      | none => .error noBuckets
      | some array => do
          let memory : Objects β :=
            memory.insert array (.array (List.replicate size.toNat none))
          let memory ← memory.modify (some a) fun _ => .header (some array) size
          return (memory, a)

/-- The loop over `j = (hash + i) % self->size`. -/
def searchFrom (haskey : Addr → Except Fault Bool) (memory : Objects β)
    (buckets : Option Addr) : List Nat → Except Fault Place
  | [] => .ok .full
  | j :: js => do
      match ← memory.entry buckets j with
      | none => return .empty j
      | some bucket =>
          if (← haskey bucket) = false then searchFrom haskey memory buckets js
          else return .found j bucket

def searchObjects (haskey : Addr → Except Fault Bool) (memory : Objects β)
    (table : Option Addr) (hash : UInt64) : Except Fault Place := do
  let (buckets, size) ← memory.header table
  searchFrom haskey memory buckets (probes size hash)

/-- The loop body of `map_destroy` and `set_destroy`. -/
def destroyStep (bucketDestroy : Objects β → Option Addr → Nat → Except Fault (Objects β))
    (buckets : Option Addr) (memory : Objects β) (i : Nat) : Except Fault (Objects β) := do
  match ← memory.entry buckets i with
  | none => return memory
  | some _ => bucketDestroy memory buckets i

/-- `map_destroy` and `set_destroy`, with the `bucket_destroy` of the file. -/
def tableDestroy (bucketDestroy : Objects β → Option Addr → Nat → Except Fault (Objects β))
    (memory : Objects β) (table : Option Addr) : Except Fault (Objects β) :=
  match table with
  | none => .ok memory
  | some a => do
      let (buckets, size) ← memory.header table
      let memory ← match buckets with
        | none => .ok memory
        | some array => do
            let memory ←
              (List.range size.toNat).foldlM (destroyStep bucketDestroy buckets) memory
            let memory ← memory.free array
            memory.modify table fun _ => .header none size
      memory.free a

section Access

variable {memory : Objects β} {cells : Cells β} {a : Addr}

theorem header_eq {buckets : Option Addr} {size : UInt64}
    (h : Exactly memory ((a, .header buckets size) :: cells)) :
    memory.header (some a) = .ok (buckets, size) := by
  rw [Objects.header, Store.load_eq h.lookup_head]
  rfl

theorem array_eq {entries : List (Option Addr)}
    (h : Exactly memory ((a, .array entries) :: cells)) :
    memory.array (some a) = .ok entries := by
  rw [Objects.array, Store.load_eq h.lookup_head]
  rfl

theorem fields_eq {fields : β} (h : Exactly memory ((a, .bucket fields) :: cells)) :
    memory.fields (some a) = .ok fields := by
  rw [Objects.fields, Store.load_eq h.lookup_head]
  rfl

theorem block_eq {bytes : List UInt8} (h : Exactly memory ((a, .block bytes) :: cells)) :
    memory.block (some a) = .ok (some bytes) := by
  rw [Objects.block, Store.load_eq h.lookup_head]
  rfl

theorem modify_cell {v : Object β} (h : Exactly memory ((a, v) :: cells)) (w : Object β) :
    ∃ memory', memory.modify (some a) (fun _ => w) = .ok memory' ∧
      Exactly memory' ((a, w) :: cells) :=
  ⟨_, Store.modify_eq h.lookup_head _, h.assign w⟩

theorem setFields_cell {fields : β} (h : Exactly memory ((a, .bucket fields) :: cells))
    (f : β → β) : ∃ memory', memory.setFields (some a) f = .ok memory' ∧
      Exactly memory' ((a, .bucket (f fields)) :: cells) := by
  rw [Objects.setFields, fields_eq h]
  exact modify_cell h _

theorem free_cell {v : Object β} (h : Exactly memory ((a, v) :: cells)) :
    ∃ memory', memory.free a = .ok memory' ∧ Exactly memory' cells :=
  ⟨_, Store.free_eq h.lookup_head, h.erase⟩

/-- The cell of a block, if there is one. -/
def blockCell (block : Option (Addr × List UInt8)) : Cells β :=
  block.elim [] fun block => [(block.1, .block block.2)]

@[simp] theorem blockCell_none : (blockCell none : Cells β) = [] := rfl

@[simp] theorem blockCell_some (a : Addr) (bytes : List UInt8) :
    (blockCell (some (a, bytes)) : Cells β) = [(a, .block bytes)] := rfl

theorem block_cell {block : Option (Addr × List UInt8)}
    (h : Exactly memory (blockCell block ++ cells)) :
    memory.block (block.map Prod.fst) = .ok (block.map Prod.snd) := by
  cases block with
  | none => rfl
  | some block => exact block_eq h

theorem freeBlock_cell {block : Option (Addr × List UInt8)}
    (h : Exactly memory (blockCell block ++ cells)) :
    ∃ memory', memory.freeBlock (block.map Prod.fst) = .ok memory' ∧ Exactly memory' cells := by
  cases block with
  | none => exact ⟨memory, rfl, h⟩
  | some block => exact free_cell h

theorem fresh_iff {answer : Option Addr} :
    Fresh memory answer ↔ ∃ a, answer = some a ∧ a ∉ memory := by
  cases answer with
  | none => simp [Fresh]
  | some a => simp [Fresh]

/-- The copy that a `bucket_new` makes of an argument, at an address. -/
def copyAt (a : Addr) (bytes : List UInt8) : Option (Addr × List UInt8) :=
  (duplicate bytes).map fun bytes => (a, bytes)

theorem copyAt_snd (a : Addr) (bytes : List UInt8) :
    (copyAt a bytes).map Prod.snd = duplicate bytes := by
  rw [copyAt, Option.map_map]
  exact Option.map_id'

theorem attach_cell {b : Addr} {fields : β} (h : Exactly memory ((a, .bucket fields) :: cells))
    (hb : b ∉ memory) (bytes : List UInt8) (noMemory : Fault) (record : Addr → β → β) :
    ∃ memory' : Objects β, memory.attach a bytes (some b) noMemory record = .ok memory' ∧
      Exactly memory' ((a, .bucket (if bytes.length > 0 then record b fields else fields)) ::
        (blockCell (copyAt b bytes) ++ cells)) := by
  by_cases hbytes : bytes.length > 0
  · simp only [Objects.attach, if_pos hbytes, copyAt, duplicate]
    obtain ⟨memory', hset, hexactly⟩ :=
      setFields_cell ((h.insert hb (.block bytes)).perm (List.Perm.swap _ _ _)) (record b)
    exact ⟨memory', hset, hexactly⟩
  · simp only [Objects.attach, if_neg hbytes, copyAt, duplicate]
    exact ⟨memory, rfl, h⟩

theorem reallocate_cell {block : Option (Addr × List UInt8)} {answer : Option Addr}
    (h : Exactly memory (blockCell block ++ cells)) (size : Nat)
    (hanswer : Resized memory (block.map Prod.fst) answer) :
    match realloc (block.map Prod.snd) size with
    | some bytes => ∃ (memory' : Objects β) (b : Addr), answer = some b ∧
        memory.reallocate (block.map Prod.fst) size answer = .ok (memory', some b) ∧
          Exactly memory' ((b, .block bytes) :: cells)
    | none => ∃ memory' : Objects β,
        memory.reallocate (block.map Prod.fst) size answer = .ok (memory', none) := by
  have hblock := block_cell h
  cases block with
  | none =>
      obtain ⟨b, rfl, hb⟩ : ∃ b, answer = some b ∧ b ∉ memory := by
        rcases hanswer with hfresh | ⟨hne, heq⟩
        · exact fresh_iff.mp hfresh
        · exact absurd heq hne
      exact ⟨_, b, rfl, rfl, h.insert hb _⟩
  | some block =>
      have hfree := freeBlock_cell h
      obtain ⟨memory₁, hfree₁, hexactly₁⟩ := hfree
      simp only [Option.map_some, realloc, Objects.reallocate] at hblock hfree₁ ⊢
      simp only [hblock, hfree₁, bind, Except.bind]
      by_cases hsize : size = 0
      · simp only [if_pos hsize]
        exact ⟨memory₁, rfl⟩
      · obtain ⟨b, rfl, hb⟩ : ∃ b, answer = some b ∧ b ∉ memory₁ := by
          have hmem : ∀ b, b ∈ memory₁ → b ∈ memory ∧ b ≠ block.1 := by
            intro b hb
            have hcells := hexactly₁.mem_iff.mp hb
            refine ⟨h.mem_iff.mpr (by simp [hcells]), fun heq => ?_⟩
            have hnodup := h.nodup
            simp only [Option.elim, blockCell, List.cons_append, List.nil_append, List.map_cons,
              List.nodup_cons] at hnodup
            exact hnodup.1 (heq ▸ hcells)
          rcases hanswer with hfresh | ⟨_, heq⟩
          · obtain ⟨b, rfl, hb⟩ := fresh_iff.mp hfresh
            exact ⟨b, rfl, fun hin => hb (hmem b hin).1⟩
          · exact ⟨block.1, heq, fun hin => (hmem _ hin).2 rfl⟩
        simp only [if_neg hsize]
        exact ⟨_, b, rfl, rfl, hexactly₁.insert hb _⟩

theorem copyTo_cell {bytes : List UInt8} (h : Exactly memory ((a, .block bytes) :: cells))
    (offset : Nat) (data : List UInt8) :
    match memcpyAt bytes offset data with
    | .ok bytes' => ∃ memory', memory.copyTo (some a) offset data = .ok memory' ∧
        Exactly memory' ((a, .block bytes') :: cells)
    | .error e => memory.copyTo (some a) offset data = .error e := by
  simp only [Objects.copyTo, block_eq h, bind, Except.bind]
  cases memcpyAt bytes offset data with
  | error e => rfl
  | ok bytes' =>
      obtain ⟨memory', hmodify, hexactly⟩ := modify_cell h (.block bytes')
      exact ⟨memory', hmodify, hexactly⟩

theorem hasKey_cell {block : Option (Addr × List UInt8)} {keylen : Nat}
    (h : Exactly memory (blockCell block ++ cells))
    (hlen : keylen = ((block.map Prod.snd).getD []).length) (key : List UInt8) :
    memory.hasKey keylen (block.map Prod.fst) key =
      .ok (haskey keylen (block.map Prod.snd) key) := by
  rw [Objects.hasKey, haskey, block_cell h]
  by_cases hkeylen : keylen = key.length
  · rw [if_pos hkeylen]
    cases block with
    | none =>
        have hnil : key = [] := List.length_eq_zero_iff.mp (hkeylen.symm.trans hlen)
        subst hnil
        simp [memcpyFrom, hkeylen, bind, Except.bind]
        rfl
    | some block =>
        have hle : key.length ≤ block.2.length := by
          simp at hlen
          omega
        simp [memcpyFrom, hle, hkeylen, bind, Except.bind]
        rfl
  · rw [if_neg hkeylen]
    simp [hkeylen]

end Access

namespace Table

variable {γ : Type}

/-- The table with every bucket seen through a function. -/
def map (f : β → γ) (self : Table β) : Table γ where
  size := self.size
  buckets := self.buckets.map (Option.map f)
  length_buckets := by rw [List.length_map, self.length_buckets]

theorem bucket_map (f : β → γ) (self : Table β) (j : Nat) :
    (self.map f).bucket j = (self.bucket j).map f := by
  rw [bucket, map, bucket, List.getD_eq_getElem?_getD, List.getElem?_map,
    List.getD_eq_getElem?_getD]
  cases self.buckets[j]? <;> rfl

theorem map_put (f : β → γ) (self : Table β) (j : Nat) (entry : Option β) :
    (self.put j entry).map f = (self.map f).put j (entry.map f) := by
  simp only [map, put, List.map_set]

@[simp] theorem map_new (f : β → γ) (size : UInt64) : (new size).map f = new size := by
  simp only [map, new, List.map_replicate, Option.map_none]

theorem search_map (f : β → γ) (self : Table β) (haskey : γ → Bool) (hash : UInt64)
    (empty : Nat → ρ) (found : Nat → γ → ρ) (full : ρ) :
    (self.map f).search haskey hash empty found full =
      self.search (fun entry => haskey (f entry)) hash empty
        (fun j entry => found j (f entry)) full := by
  rw [search, search]
  congr 2
  funext j
  rw [bucket_map]
  cases self.bucket j <;> rfl

end Table

/-- Where a bucket of a table is, and the cells it is made of. -/
structure Layout (β P : Type) where
  address : P → Addr
  cells : P → Cells β

/-- A table with the addresses of its header and of its array. -/
structure Placement (P : Type) where
  address : Addr
  array : Addr
  table : Table P

namespace Placement

variable (layout : Layout β P) (placement : Placement P)

def entries : List (Option Addr) := placement.table.buckets.map (Option.map layout.address)

def entryCells (entry : Option P) : Cells β := entry.elim [] layout.cells

def cells : Cells β :=
  (placement.address, .header (some placement.array) placement.table.size) ::
    (placement.array, .array (placement.entries layout)) ::
      placement.table.buckets.flatMap (entryCells layout)

end Placement

section Common

variable {layout : Layout β P} {placement : Placement P} {memory : Objects β} {frame : Cells β}

theorem tableNew_exactly {noTable noBuckets : Fault} (h : Exactly memory frame) {a array : Addr}
    (ha : a ∉ memory) (harray : array ∉ memory) (hne : array ≠ a) (size : UInt64) :
    ∃ memory', tableNew noTable noBuckets memory size (some a) (some array) =
        .ok (memory', a) ∧
      Exactly memory' (Placement.cells layout ⟨a, array, Table.new size⟩ ++ frame) := by
  have hheader := h.insert ha (.header none 0)
  have hboth := hheader.insert (Exactly.insert_of_ne harray hne)
    (.array (List.replicate size.toNat none))
  obtain ⟨memory', hmodify, hexactly⟩ :=
    modify_cell (hboth.perm (List.Perm.swap _ _ _)) (.header (some array) size)
  refine ⟨memory', ?_, ?_⟩
  · rw [tableNew, hmodify]
    rfl
  · have hflat : (List.replicate size.toNat (none : Option P)).flatMap
        (Placement.entryCells layout) = [] := by
      rw [List.flatMap_eq_nil_iff]
      intro entry hentry
      rw [List.eq_of_mem_replicate hentry]
      rfl
    simp only [Placement.cells, Placement.entries, Table.new, hflat, List.map_replicate]
    exact hexactly

theorem exactly_array (h : Exactly memory (placement.cells layout ++ frame)) :
    memory.array (some placement.array) = .ok (placement.entries layout) :=
  array_eq (h.perm (List.Perm.swap _ _ _))

theorem entry_eq {j : Nat} (h : Exactly memory (placement.cells layout ++ frame))
    (hj : j < placement.table.size.toNat) :
    memory.entry (some placement.array) j =
      .ok ((placement.table.bucket j).map layout.address) := by
  have hlen : j < placement.table.buckets.length := by
    rw [placement.table.length_buckets]
    exact hj
  have hentry : (placement.entries layout)[j]? =
      some ((placement.table.bucket j).map layout.address) := by
    rw [Placement.entries, List.getElem?_map, Table.bucket, List.getD_eq_getElem?_getD,
      List.getElem?_eq_getElem hlen]
    rfl
  rw [Objects.entry, exactly_array h]
  simp only [bind, Except.bind, hentry]
  rfl

theorem searchFrom_eq {haskey : Addr → Except Fault Bool} {hasKey : P → Bool}
    (h : Exactly memory (placement.cells layout ++ frame))
    (hkey : ∀ j p, placement.table.bucket j = some p →
      haskey (layout.address p) = .ok (hasKey p))
    (js : List Nat) (hjs : ∀ j ∈ js, j < placement.table.size.toNat) :
    searchFrom haskey memory (some placement.array) js =
      .ok ((js.findSome? fun j =>
        match placement.table.bucket j with
        | none => some (.empty j)
        | some p => if hasKey p = false then none else some (.found j (layout.address p))).getD
          .full) := by
  induction js with
  | nil => rfl
  | cons j js ih =>
      have hrest := ih fun i hi => hjs i (List.mem_cons_of_mem _ hi)
      rw [searchFrom, entry_eq h (hjs j List.mem_cons_self), List.findSome?_cons]
      cases hbucket : placement.table.bucket j with
      | none => rfl
      | some p =>
          simp only [Option.map_some, bind, Except.bind, hkey j p hbucket]
          cases hp : hasKey p with
          | false => simpa using hrest
          | true => rfl

theorem searchObjects_eq {haskey : Addr → Except Fault Bool} {hasKey : P → Bool}
    (h : Exactly memory (placement.cells layout ++ frame))
    (hkey : ∀ j p, placement.table.bucket j = some p →
      haskey (layout.address p) = .ok (hasKey p)) (hash : UInt64) :
    searchObjects haskey memory (some placement.address) hash =
      .ok (placement.table.search hasKey hash .empty
        (fun j p => .found j (layout.address p)) .full) := by
  rw [searchObjects, header_eq h]
  exact searchFrom_eq h hkey _ fun _ => lt_of_mem_probes

theorem place_cases {γ : Type} {haskey : Addr → Except Fault Bool} {hasKey : γ → Bool}
    {bytes : γ → List UInt8} {key : List UInt8} (view : P → γ)
    (h : Exactly memory (placement.cells layout ++ frame))
    (hbytes : ∀ entry, hasKey entry = true ↔ bytes entry = key)
    (hkey : ∀ j p, placement.table.bucket j = some p →
      haskey (layout.address p) = .ok (hasKey (view p))) (hash : UInt64) :
    (searchObjects haskey memory (some placement.address) hash = .ok .full ∧
      ∀ {ρ : Type} (empty : Nat → ρ) (found : Nat → γ → ρ) (full : ρ),
        (placement.table.map view).search hasKey hash empty found full = full) ∨
    (∃ j, j < placement.table.size.toNat ∧ placement.table.bucket j = none ∧
      searchObjects haskey memory (some placement.address) hash = .ok (.empty j) ∧
      ∀ {ρ : Type} (empty : Nat → ρ) (found : Nat → γ → ρ) (full : ρ),
        (placement.table.map view).search hasKey hash empty found full = empty j) ∨
    (∃ j p, placement.table.bucket j = some p ∧
      searchObjects haskey memory (some placement.address) hash =
        .ok (.found j (layout.address p)) ∧
      ∀ {ρ : Type} (empty : Nat → ρ) (found : Nat → γ → ρ) (full : ρ),
        (placement.table.map view).search hasKey hash empty found full = found j (view p)) := by
  have hsearch := searchObjects_eq h hkey hash
  have hview : ∀ {ρ : Type} (empty : Nat → ρ) (found : Nat → γ → ρ) (full : ρ),
      (placement.table.map view).search hasKey hash empty found full =
        placement.table.search (fun p => hasKey (view p)) hash empty
          (fun j p => found j (view p)) full := by
    intro ρ empty found full
    exact Table.search_map _ _ _ _ _ _ _
  have hbytes' : ∀ p, hasKey (view p) = true ↔ bytes (view p) = key := fun p => hbytes (view p)
  simp only [Table.search_eq hbytes'] at hsearch hview
  cases hstop : placement.table.stop (fun p => bytes (view p)) key hash with
  | none =>
      simp only [hstop] at hsearch hview
      exact .inl ⟨hsearch, hview⟩
  | some j =>
      simp only [hstop] at hsearch hview
      cases hentry : placement.table.bucket j with
      | none =>
          simp only [hentry] at hsearch hview
          exact .inr (.inl ⟨j, Table.stop_lt hstop, hentry, hsearch, hview⟩)
      | some p =>
          simp only [hentry] at hsearch hview
          exact .inr (.inr ⟨j, p, hentry, hsearch, hview⟩)

namespace Placement

/-- The placement after an assignment to one entry of the array. -/
def put (placement : Placement P) (j : Nat) (entry : Option P) : Placement P :=
  { placement with table := placement.table.put j entry }

/-- The cells that a bucket shares the table with, the array apart. -/
def others (layout : Layout β P) (placement : Placement P) (j : Nat) : Cells β :=
  (placement.address, .header (some placement.array) placement.table.size) ::
    (placement.table.buckets.eraseIdx j).flatMap (entryCells layout)

theorem buckets_getElem? (placement : Placement P) {j : Nat}
    (hj : j < placement.table.size.toNat) :
    placement.table.buckets[j]? = some (placement.table.bucket j) := by
  have hlen : j < placement.table.buckets.length := by
    rw [placement.table.length_buckets]
    exact hj
  rw [Table.bucket, List.getD_eq_getElem?_getD, List.getElem?_eq_getElem hlen]
  rfl

theorem cells_perm (layout : Layout β P) (placement : Placement P) {j : Nat}
    (hj : j < placement.table.size.toNat) :
    (placement.cells layout).Perm ((placement.array, .array (placement.entries layout)) ::
      (entryCells layout (placement.table.bucket j) ++ placement.others layout j)) := by
  have hflat := flatMap_perm (entryCells layout) (placement.buckets_getElem? hj)
  calc placement.cells layout
      |>.Perm ((placement.array, .array (placement.entries layout)) ::
        (placement.address, .header (some placement.array) placement.table.size) ::
          placement.table.buckets.flatMap (entryCells layout)) := List.Perm.swap _ _ _
    _ |>.Perm _ := by
      refine List.Perm.cons _ ((hflat.cons _).trans ?_)
      exact List.perm_middle.symm

theorem cells_put_perm (layout : Layout β P) (placement : Placement P) {j : Nat}
    (hj : j < placement.table.size.toNat) (entry : Option P) :
    ((placement.put j entry).cells layout).Perm
      ((placement.array,
          .array ((placement.entries layout).set j (entry.map layout.address))) ::
        (entryCells layout entry ++ placement.others layout j)) := by
  have hperm := cells_perm layout (placement.put j entry) hj
  have hentry : (placement.put j entry).table.bucket j = entry :=
    Table.bucket_put_self placement.table hj entry
  have hentries : (placement.put j entry).entries layout =
      (placement.entries layout).set j (entry.map layout.address) := by
    simp only [entries, put, Table.put, List.map_set]
  have hothers : (placement.put j entry).others layout j = placement.others layout j := by
    simp only [others, put, Table.put, List.eraseIdx_set_eq]
  rwa [hentry, hentries, hothers] at hperm

end Placement

theorem bucket_front_perm (layout : Layout β P) (placement : Placement P) (frame : Cells β)
    {j : Nat} (hj : j < placement.table.size.toNat) :
    (placement.cells layout ++ frame).Perm
      (Placement.entryCells layout (placement.table.bucket j) ++
        ((placement.array, .array (placement.entries layout)) ::
          (placement.others layout j ++ frame))) := by
  calc placement.cells layout ++ frame
      |>.Perm ((placement.array, .array (placement.entries layout)) ::
        (Placement.entryCells layout (placement.table.bucket j) ++
          placement.others layout j) ++ frame) :=
        (placement.cells_perm layout hj).append_right frame
    _ |>.Perm _ := by
      rw [List.cons_append, List.append_assoc]
      exact List.perm_middle.symm

/-- What the bucket becomes and what its entry of the array becomes, together. -/
theorem exactly_put (layout : Layout β P) {j : Nat} (hj : j < placement.table.size.toNat)
    (entry : Option P) (h : Exactly memory (Placement.entryCells layout entry ++
      ((placement.array, .array (placement.entries layout)) ::
        (placement.others layout j ++ frame)))) :
    ∃ memory', memory.setEntry (some placement.array) j (entry.map layout.address) =
        .ok memory' ∧ Exactly memory' ((placement.put j entry).cells layout ++ frame) := by
  have hlen : j < (placement.entries layout).length := by
    rw [Placement.entries, List.length_map, placement.table.length_buckets]
    exact hj
  have harray := h.perm List.perm_middle
  obtain ⟨memory', hmodify, hexactly⟩ := modify_cell harray
    (.array ((placement.entries layout).set j (entry.map layout.address)))
  refine ⟨memory', ?_, hexactly.perm ?_⟩
  · rw [Objects.setEntry, array_eq harray]
    simp only [bind, Except.bind, if_pos hlen]
    exact hmodify
  · rw [← List.append_assoc, ← List.cons_append]
    exact ((placement.cells_put_perm layout hj entry).append_right frame).symm

theorem exactly_replace {j : Nat} (hj : j < placement.table.size.toNat) {p p' : P}
    (hp : placement.table.bucket j = some p) (haddress : layout.address p' = layout.address p)
    (h : Exactly memory (layout.cells p' ++
      ((placement.array, .array (placement.entries layout)) ::
        (placement.others layout j ++ frame)))) :
    Exactly memory ((placement.put j (some p')).cells layout ++ frame) := by
  have hlen : j < placement.table.buckets.length := by
    rw [placement.table.length_buckets]
    exact hj
  have hentries : (placement.entries layout).set j ((some p').map layout.address) =
      placement.entries layout := by
    have hold := placement.buckets_getElem? hj
    rw [hp, List.getElem?_eq_getElem hlen, Option.some.injEq] at hold
    rw [Option.map_some, haddress, ← Option.map_some, ← hold, Placement.entries, ← List.map_set,
      List.set_getElem_self]
  have hperm := (placement.cells_put_perm layout hj (some p')).append_right frame
  rw [hentries] at hperm
  refine (h.perm List.perm_middle).perm ?_
  rw [← List.append_assoc, ← List.cons_append]
  exact hperm.symm

section Destroy

variable {bucketDestroy : Objects β → Option Addr → Nat → Except Fault (Objects β)}

theorem destroyLoop_exactly
    (hdestroy : ∀ (memory : Objects β) (placement : Placement P) j p,
      Exactly memory (placement.cells layout ++ frame) → placement.table.bucket j = some p →
        ∃ memory', bucketDestroy memory (some placement.array) j = .ok memory' ∧
          Exactly memory' ((placement.put j none).cells layout ++ frame))
    (js : List Nat) (h : Exactly memory (placement.cells layout ++ frame))
    (hjs : ∀ j ∈ js, j < placement.table.size.toNat) :
    ∃ (memory' : Objects β) (placement' : Placement P),
      js.foldlM (destroyStep bucketDestroy (some placement.array)) memory = .ok memory' ∧
      Exactly memory' (placement'.cells layout ++ frame) ∧
      placement'.address = placement.address ∧ placement'.array = placement.array ∧
      placement'.table.size = placement.table.size ∧
      ∀ i, placement'.table.bucket i = none ∨ i ∉ js ∧ placement'.table.bucket i =
        placement.table.bucket i := by
  induction js generalizing memory placement with
  | nil => exact ⟨memory, placement, rfl, h, rfl, rfl, rfl, fun i => .inr ⟨by simp, rfl⟩⟩
  | cons j js ih =>
      have hj := hjs j List.mem_cons_self
      have hrest : ∀ i ∈ js, i < placement.table.size.toNat :=
        fun i hi => hjs i (List.mem_cons_of_mem _ hi)
      rw [List.foldlM_cons, destroyStep, entry_eq h hj]
      cases hbucket : placement.table.bucket j with
      | none =>
          obtain ⟨memory', placement', hloop, hexactly, haddress, harray, hsize, hempty⟩ :=
            ih h hrest
          refine ⟨memory', placement', hloop, hexactly, haddress, harray, hsize, fun i => ?_⟩
          rcases hempty i with hnone | ⟨hi, hsame⟩
          · exact .inl hnone
          · by_cases hij : i = j
            · exact .inl (by rw [hsame, hij, hbucket])
            · exact .inr ⟨by simp [hij, hi], hsame⟩
      | some p =>
          obtain ⟨memory₁, hcall, hexactly₁⟩ := hdestroy memory placement j p h hbucket
          obtain ⟨memory', placement', hloop, hexactly, haddress, harray, hsize, hempty⟩ :=
            ih hexactly₁ hrest
          refine ⟨memory', placement', ?_, hexactly, haddress, harray, hsize, fun i => ?_⟩
          · simp only [Option.map_some, bind, Except.bind, hcall]
            exact hloop
          · rcases hempty i with hnone | ⟨hi, hsame⟩
            · exact .inl hnone
            · by_cases hij : i = j
              · subst hij
                exact .inl (hsame.trans (Table.bucket_put_self placement.table hj none))
              · refine .inr ⟨by simp [hij, hi], ?_⟩
                exact hsame.trans (Table.bucket_put_ne placement.table hj none hij)

theorem tableDestroy_exactly
    (hdestroy : ∀ (memory : Objects β) (placement : Placement P) j p,
      Exactly memory (placement.cells layout ++ frame) → placement.table.bucket j = some p →
        ∃ memory', bucketDestroy memory (some placement.array) j = .ok memory' ∧
          Exactly memory' ((placement.put j none).cells layout ++ frame))
    (h : Exactly memory (placement.cells layout ++ frame)) :
    ∃ memory', tableDestroy bucketDestroy memory (some placement.address) = .ok memory' ∧
      Exactly memory' frame := by
  obtain ⟨memory₁, placement₁, hloop, hexactly₁, haddress, harray, hsize, hempty⟩ :=
    destroyLoop_exactly hdestroy (List.range placement.table.size.toNat) h
      fun j => List.mem_range.mp
  have hflat : placement₁.table.buckets.flatMap (Placement.entryCells layout) = [] := by
    rw [List.flatMap_eq_nil_iff]
    intro entry hentry
    obtain ⟨i, hi, rfl⟩ := List.mem_iff_getElem.mp hentry
    have hlt : i < placement₁.table.size.toNat := by
      rw [← placement₁.table.length_buckets]
      exact hi
    have hbucket := placement₁.buckets_getElem? hlt
    rw [List.getElem?_eq_getElem hi, Option.some.injEq] at hbucket
    rcases hempty i with hnone | ⟨hout, _⟩
    · rw [hbucket, hnone]
      rfl
    · rw [hsize] at hlt
      exact absurd (List.mem_range.mpr hlt) hout
  rw [Placement.cells, hflat, haddress, harray, List.cons_append, List.cons_append,
    List.nil_append] at hexactly₁
  obtain ⟨memory₂, hfree₂, hexactly₂⟩ := free_cell (hexactly₁.perm (List.Perm.swap _ _ _))
  obtain ⟨memory₃, hmodify₃, hexactly₃⟩ :=
    modify_cell hexactly₂ (.header none placement.table.size)
  obtain ⟨memory₄, hfree₄, hexactly₄⟩ := free_cell hexactly₃
  refine ⟨memory₄, ?_, hexactly₄⟩
  simp only [tableDestroy, header_eq h, hloop, hfree₂, hmodify₃, bind, Except.bind]
  exact hfree₄

end Destroy

end Common

end Doctrina.Internal
