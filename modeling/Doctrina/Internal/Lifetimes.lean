import Doctrina.Internal.Objects
/-!
# Which objects are live

A process makes calls on any number of tables, and frees the buffers that it is
given.  `Contents` is what it may think of: a table for every pointer to one,
and the bytes of every buffer.  `Held` says that the live objects are those of
the tables and of the buffers and no others.  It is kept by whatever works on
the cells of one table, or of one buffer, and leaves the rest of the memory as
it is.
-/

namespace Doctrina.Internal

open Doctrina.Lib.Cells

variable {β P γ : Type}

def bufferCell (buffer : Addr × List UInt8) : Addr × Object β := (buffer.1, .block buffer.2)

/-- The cells of the tables and those of the buffers. -/
def inventory (layout : Layout β P) (placements : List (Placement P))
    (blocks : List (Addr × List UInt8)) : Cells β :=
  placements.flatMap (Placement.cells layout) ++ blocks.map bufferCell

/-- The live objects are those of the tables and of the buffers. -/
def Held (layout : Layout β P) (view : P → γ) (memory : Objects β)
    (tables : Addr → Option (Table γ)) (buffers : Addr → Option (List UInt8)) : Prop :=
  ∃ placements blocks, Exactly memory (inventory layout placements blocks) ∧
    Lists Placement.address (fun placement => placement.table.map view) placements tables ∧
    Lists Prod.fst Prod.snd blocks buffers

section Inventory

variable {layout : Layout β P} {view : P → γ} {memory memory' : Objects β}
  {placements placements' : List (Placement P)} {blocks blocks' : List (Addr × List UInt8)}
  {placement : Placement P} {cells : Cells β} {a : Addr} {bytes : List UInt8}
  {tables : Addr → Option (Table γ)} {buffers : Addr → Option (List UInt8)}

theorem inventory_perm (hplacements : placements.Perm placements') (hblocks : blocks.Perm blocks') :
    (inventory layout placements blocks).Perm (inventory layout placements' blocks') :=
  (hplacements.flatMap_right _).append (hblocks.map _)

theorem inventory_cons_table (layout : Layout β P) (placement : Placement P)
    (placements : List (Placement P)) (blocks : List (Addr × List UInt8)) :
    inventory layout (placement :: placements) blocks =
      placement.cells layout ++ inventory layout placements blocks := by
  rw [inventory, inventory, List.flatMap_cons, List.append_assoc]

theorem inventory_cons_buffer (layout : Layout β P) (placements : List (Placement P))
    (block : Addr × List UInt8) (blocks : List (Addr × List UInt8)) :
    (inventory layout placements (block :: blocks)).Perm
      (bufferCell block :: inventory layout placements blocks) := by
  rw [inventory, inventory, List.map_cons]
  exact List.perm_middle

theorem address_not_mem
    (h : Exactly memory (placement.cells layout ++ inventory layout placements blocks)) :
    placement.address ∉ placements.map Placement.address := by
  intro hmem
  obtain ⟨other, hother, heq⟩ := List.mem_map.mp hmem
  apply h.not_mem_tail
  rw [List.mem_map]
  refine ⟨(other.address, .header (some other.array) other.table.size), ?_, heq⟩
  apply List.mem_append_right
  apply List.mem_append_left
  exact List.mem_flatMap.mpr ⟨other, hother, List.mem_cons_self⟩

theorem buffer_not_mem
    (h : Exactly memory ((a, .block bytes) :: inventory layout placements blocks)) :
    a ∉ blocks.map Prod.fst := by
  intro hmem
  obtain ⟨other, hother, heq⟩ := List.mem_map.mp hmem
  apply h.not_mem_tail
  rw [List.mem_map]
  exact ⟨bufferCell other, List.mem_append_right _ (List.mem_map_of_mem hother), heq⟩

theorem held_empty : Held layout view (∅ : Objects β) (fun _ => none) (fun _ => none) :=
  ⟨[], [], Exactly.empty, Lists.nil, Lists.nil⟩

theorem Held.eq_empty (h : Held layout view memory tables buffers)
    (htables : ∀ a, tables a = none) (hbuffers : ∀ a, buffers a = none) : memory = ∅ := by
  obtain ⟨placements, blocks, hexactly, hplacements, hblocks⟩ := h
  rw [hplacements.eq_nil htables, hblocks.eq_nil hbuffers] at hexactly
  exact hexactly.eq_empty

theorem Held.new_table (h : Held layout view memory tables buffers)
    (hcells : Exactly memory cells) (hexactly : Exactly memory' (placement.cells layout ++ cells)) :
    Held layout view memory'
      (Function.update tables placement.address (some (placement.table.map view))) buffers := by
  obtain ⟨placements, blocks, hold, hplacements, hblocks⟩ := h
  have hfront := hexactly.perm ((hcells.perm_of hold).append_left _)
  refine ⟨placement :: placements, blocks, ?_, ?_, hblocks⟩
  · rwa [inventory_cons_table]
  · exact hplacements.cons placement (address_not_mem hfront)

theorem Held.new_buffer (h : Held layout view memory tables buffers)
    (hcells : Exactly memory cells) (hexactly : Exactly memory' ((a, .block bytes) :: cells)) :
    Held layout view memory' tables (Function.update buffers a (some bytes)) := by
  obtain ⟨placements, blocks, hold, hplacements, hblocks⟩ := h
  have hfront := hexactly.perm ((hcells.perm_of hold).cons _)
  refine ⟨placements, (a, bytes) :: blocks, ?_, hplacements, ?_⟩
  · exact hfront.perm (inventory_cons_buffer layout placements (a, bytes) blocks).symm
  · exact hblocks.cons (a, bytes) (buffer_not_mem hfront)

/-- The cells of one table and the frame, and what is held once the table has
been replaced or destroyed. -/
theorem Held.table {table : Table γ} (h : Held layout view memory tables buffers)
    (htable : tables a = some table) : ∃ (placement : Placement P) (frame : Cells β),
      placement.address = a ∧ placement.table.map view = table ∧
      Exactly memory (placement.cells layout ++ frame) ∧
      (∀ (memory' : Objects β) (placement' : Placement P), placement'.address = a →
        Exactly memory' (placement'.cells layout ++ frame) →
          Held layout view memory'
            (Function.update tables a (some (placement'.table.map view))) buffers) ∧
      ∀ memory' : Objects β, Exactly memory' frame →
        Held layout view memory' (Function.update tables a none) buffers := by
  obtain ⟨placements, blocks, hexactly, hplacements, hblocks⟩ := h
  obtain ⟨placement, rest, hperm, rfl, hview⟩ := hplacements.front htable
  have hfront := hexactly.perm (inventory_perm hperm (List.Perm.refl blocks))
  rw [inventory_cons_table] at hfront
  have hrest := (hplacements.perm hperm).tail (address_not_mem hfront)
  refine ⟨placement, inventory layout rest blocks, rfl, hview, hfront, ?_, ?_⟩
  · intro memory' placement' haddress hexactly'
    refine ⟨placement' :: rest, blocks, ?_, ?_, hblocks⟩
    · rwa [inventory_cons_table]
    · have hcons := hrest.cons placement' (address_not_mem hexactly')
      rwa [haddress, Function.update_idem] at hcons
  · intro memory' hexactly'
    exact ⟨rest, blocks, hexactly', hrest, hblocks⟩

theorem Held.free_buffer (h : Held layout view memory tables buffers)
    (hbuffer : buffers a = some bytes) : ∃ memory', memory.free a = .ok memory' ∧
      Held layout view memory' tables (Function.update buffers a none) := by
  obtain ⟨placements, blocks, hexactly, hplacements, hblocks⟩ := h
  obtain ⟨⟨b, bytes'⟩, rest, hperm, rfl, rfl⟩ := hblocks.front hbuffer
  have hfront := (hexactly.perm (inventory_perm (List.Perm.refl placements) hperm)).perm
    (inventory_cons_buffer layout placements (b, bytes') rest)
  obtain ⟨memory', hfree, hexactly'⟩ := free_cell hfront
  refine ⟨memory', hfree, placements, rest, hexactly', hplacements, ?_⟩
  exact (hblocks.perm hperm).tail (buffer_not_mem hfront)

end Inventory

/-- What a call returns: a table, a status, or a buffer and the word behind
`size`. -/
inductive Returned
  | table (pointer : Addr)
  | status (value : Int)
  | buffer (pointer : Option Addr) (size : Option Nat)
  | void
  deriving DecidableEq

/-- The objects, the tables that were returned and not destroyed, the buffers
that were returned and not freed, and what the calls have returned. -/
structure Process (β : Type) where
  memory : Objects β
  tables : Finset Addr
  buffers : Finset Addr
  trace : List Returned

structure Contents (γ : Type) where
  tables : Addr → Option (Table γ)
  buffers : Addr → Option (List UInt8)
  trace : List Returned

namespace Process

def init : Process β := ⟨∅, ∅, ∅, []⟩

def creates (self : Process β) (memory : Objects β) (table : Addr) : Process β :=
  { self with memory, tables := insert table self.tables, trace := self.trace ++ [.table table] }

def returns (self : Process β) (memory : Objects β) (value : Int) : Process β :=
  { self with memory, trace := self.trace ++ [.status value] }

def reads (self : Process β) (memory : Objects β) (buffer : Option Addr) (size : Option Nat) :
    Process β :=
  { self with memory, buffers := self.buffers ∪ buffer.toFinset,
              trace := self.trace ++ [.buffer buffer size] }

def destroys (self : Process β) (memory : Objects β) (table : Option Addr) : Process β :=
  { self with memory, tables := self.tables \ table.toFinset, trace := self.trace ++ [.void] }

def frees (self : Process β) (memory : Objects β) (buffer : Addr) : Process β :=
  { self with memory, buffers := self.buffers.erase buffer, trace := self.trace ++ [.void] }

end Process

namespace Contents

def init : Contents γ := ⟨fun _ => none, fun _ => none, []⟩

def load (self : Contents γ) (a : Addr) : Except Fault (Table γ) :=
  match self.tables a with
  | none => .error .badAddress
  | some table => .ok table

def creates (self : Contents γ) (a : Addr) (table : Table γ) : Contents γ :=
  { self with tables := Function.update self.tables a (some table),
              trace := self.trace ++ [.table a] }

def returns (self : Contents γ) (value : Int) : Contents γ :=
  { self with trace := self.trace ++ [.status value] }

def stores (self : Contents γ) (a : Addr) (table : Table γ) (value : Int) : Contents γ :=
  { self with tables := Function.update self.tables a (some table),
              trace := self.trace ++ [.status value] }

/-- The bytes were copied to where the allocator answered. -/
def reads (self : Contents γ) (answer : Option Addr) (bytes : Option (List UInt8))
    (size : Option Nat) : Contents γ :=
  match bytes, answer with
  | some bytes, some b => { self with
      buffers := Function.update self.buffers b (some bytes)
      trace := self.trace ++ [.buffer (some b) size] }
  | _, _ => { self with trace := self.trace ++ [.buffer none size] }

def destroys (self : Contents γ) (table : Option Addr) : Contents γ :=
  { self with
    tables := table.elim self.tables fun a => Function.update self.tables a none
    trace := self.trace ++ [.void] }

def frees (self : Contents γ) (buffer : Addr) : Contents γ :=
  { self with buffers := Function.update self.buffers buffer none,
              trace := self.trace ++ [.void] }

end Contents

/-- The objects are those of the contents. -/
structure Reflects (layout : Layout β P) (view : P → γ) (contents : Contents γ)
    (process : Process β) : Prop where
  held : Held layout view process.memory contents.tables contents.buffers
  tables : ∀ a, a ∈ process.tables ↔ contents.tables a ≠ none
  buffers : ∀ a, a ∈ process.buffers ↔ contents.buffers a ≠ none
  trace : process.trace = contents.trace

namespace Reflects

variable {layout : Layout β P} {view : P → γ} {contents : Contents γ} {process : Process β}
  {memory' : Objects β} {placement : Placement P} {cells : Cells β} {a : Addr}
  {bytes : List UInt8}

theorem init : Reflects layout view Contents.init Process.init where
  held := held_empty
  tables a := by simp [Process.init, Contents.init]
  buffers a := by simp [Process.init, Contents.init]
  trace := rfl

theorem eq_empty (h : Reflects layout view contents process) (htables : process.tables = ∅)
    (hbuffers : process.buffers = ∅) : process.memory = ∅ := by
  apply h.held.eq_empty
  · intro a
    have ha := h.tables a
    rw [htables] at ha
    simpa using ha
  · intro a
    have ha := h.buffers a
    rw [hbuffers] at ha
    simpa using ha

theorem creates (h : Reflects layout view contents process)
    (hcells : Exactly process.memory cells)
    (hexactly : Exactly memory' (placement.cells layout ++ cells)) :
    Reflects layout view (contents.creates placement.address (placement.table.map view))
      (process.creates memory' placement.address) where
  held := h.held.new_table hcells hexactly
  tables b := by
    by_cases hb : b = placement.address
    · simp [Process.creates, Contents.creates, hb]
    · simp [Process.creates, Contents.creates, hb, h.tables b]
  buffers := h.buffers
  trace := congrArg (· ++ _) h.trace

theorem returns (h : Reflects layout view contents process) (value : Int) :
    Reflects layout view (contents.returns value) (process.returns process.memory value) where
  held := h.held
  tables := h.tables
  buffers := h.buffers
  trace := congrArg (· ++ _) h.trace

theorem load (h : Reflects layout view contents process) (ha : a ∈ process.tables) :
    ∃ (placement : Placement P) (frame : Cells β), placement.address = a ∧
      contents.load a = .ok (placement.table.map view) ∧
      Exactly process.memory (placement.cells layout ++ frame) ∧
      ∀ (memory' : Objects β) (placement' : Placement P) (value : Int),
        placement'.address = a → Exactly memory' (placement'.cells layout ++ frame) →
          Reflects layout view (contents.stores a (placement'.table.map view) value)
            (process.returns memory' value) := by
  obtain ⟨table, htable⟩ := Option.ne_none_iff_exists'.mp ((h.tables a).mp ha)
  obtain ⟨placement, frame, haddress, hview, hexactly, hreplace, _⟩ := h.held.table htable
  refine ⟨placement, frame, haddress, ?_, hexactly, ?_⟩
  · rw [Contents.load, htable, hview]
  · intro memory' placement' value haddress' hexactly'
    refine ⟨hreplace memory' placement' haddress' hexactly', fun b => ?_, h.buffers,
      congrArg (· ++ _) h.trace⟩
    by_cases hb : b = a
    · simp [Contents.stores, Process.returns, hb, ha]
    · simp [Contents.stores, Process.returns, hb, h.tables b]

theorem reads_none (h : Reflects layout view contents process) (answer : Option Addr)
    (size : Option Nat) : Reflects layout view (contents.reads answer none size)
      (process.reads process.memory none size) where
  held := h.held
  tables := h.tables
  buffers b := by simpa [Process.reads, Contents.reads] using h.buffers b
  trace := congrArg (· ++ _) h.trace

theorem reads_some (h : Reflects layout view contents process)
    (hcells : Exactly process.memory cells)
    (hexactly : Exactly memory' ((a, .block bytes) :: cells)) (size : Option Nat) :
    Reflects layout view (contents.reads (some a) (some bytes) size)
      (process.reads memory' (some a) size) where
  held := h.held.new_buffer hcells hexactly
  tables := h.tables
  buffers b := by
    by_cases hb : b = a
    · simp [Process.reads, Contents.reads, hb]
    · simp [Process.reads, Contents.reads, hb, h.buffers b]
  trace := congrArg (· ++ _) h.trace

theorem destroys_none (h : Reflects layout view contents process) :
    Reflects layout view (contents.destroys none) (process.destroys process.memory none) where
  held := h.held
  tables b := by simpa [Process.destroys, Contents.destroys] using h.tables b
  buffers := h.buffers
  trace := congrArg (· ++ _) h.trace

theorem destroys_some (h : Reflects layout view contents process) (ha : a ∈ process.tables) :
    ∃ (placement : Placement P) (frame : Cells β), placement.address = a ∧
      Exactly process.memory (placement.cells layout ++ frame) ∧
      ∀ memory' : Objects β, Exactly memory' frame →
        Reflects layout view (contents.destroys (some a)) (process.destroys memory' (some a)) := by
  obtain ⟨table, htable⟩ := Option.ne_none_iff_exists'.mp ((h.tables a).mp ha)
  obtain ⟨placement, frame, haddress, _, hexactly, _, hforget⟩ := h.held.table htable
  refine ⟨placement, frame, haddress, hexactly, fun memory' hexactly' => ?_⟩
  refine ⟨hforget memory' hexactly', fun b => ?_, h.buffers, congrArg (· ++ _) h.trace⟩
  by_cases hb : b = a
  · simp [Process.destroys, Contents.destroys, hb]
  · simp [Process.destroys, Contents.destroys, hb, h.tables b]

theorem frees (h : Reflects layout view contents process) (ha : a ∈ process.buffers) :
    ∃ memory', Store.free process.memory a = .ok memory' ∧
      Reflects layout view (contents.frees a) (process.frees memory' a) := by
  obtain ⟨bytes, hbytes⟩ := Option.ne_none_iff_exists'.mp ((h.buffers a).mp ha)
  obtain ⟨memory', heq, hheld⟩ := h.held.free_buffer hbytes
  refine ⟨memory', heq, hheld, h.tables, fun b => ?_, congrArg (· ++ _) h.trace⟩
  by_cases hb : b = a
  · simp [Process.frees, Contents.frees, hb]
  · simp [Process.frees, Contents.frees, hb, h.buffers b]

end Reflects

end Doctrina.Internal
