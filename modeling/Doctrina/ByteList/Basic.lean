import Doctrina.Fault
import Doctrina.Lib.Ring
/-!
# The byte list of list.c

As in the ring buffer, the bytes of a block are the memory from its first byte
on, and a copy that leaves the block is not stopped: the block ends at offset
`size`.  Memory is taken to be available.
-/

namespace Doctrina.ByteList

open Doctrina.Lib.Ring

structure Block where
  size : Nat
  bytes : Nat → UInt8

structure ListT where
  cap : UInt64
  len : UInt64
  data : Option Block

/-- The bytes of a new block stand for any. -/
def malloc (size : Nat) : Option Block := some ⟨size, fun _ => 0⟩

/-- The bytes up to the smaller size are kept.  A block resized to nothing is
freed and NULL returned. -/
def realloc (old : Block) (size : Nat) : Option Block :=
  if size = 0 then none
  else some ⟨size, fun i => if i < min old.size size then old.bytes i else 0⟩

def listCreate (cap : UInt64) : ListT := ⟨cap, 0, none⟩

/-- Where `list_append` copies to: `len` has been raised by then. -/
def appendOffset (self : ListT) (size : UInt64) : Nat := (self.len + size).toNat

/-- Returns 0 when the bytes were appended and -1 when they were refused. -/
def listAppend (self : ListT) (data : List UInt8) (size : UInt64) :
    Except Fault (ListT × Int) :=
  if self.cap > 0 ∧ size + self.len > self.cap then .ok (self, -1)
  else
    let len := self.len + size
    let block := match self.data with
      | none => malloc size.toNat
      | some old => realloc old len.toNat
    match block with
    | none => .error (.exit "list_append" "Could not allocate list data buffer to the heap")
    | some block =>
        let bytes := writeAt block.bytes (appendOffset self size) (data.take size.toNat)
        .ok ({ self with len, data := some { block with bytes } }, 0)

def ListT.contents (self : ListT) : List UInt8 :=
  match self.data with
  | none => []
  | some block => readAt block.bytes 0 self.len.toNat

section Append

variable (self : ListT) (data : List UInt8) (size : UInt64)

def Refuses : Prop := self.cap > 0 ∧ size + self.len > self.cap

instance : Decidable (Refuses self size) := inferInstanceAs (Decidable (_ ∧ _))

/-- An append is refused, exits because the block is resized to nothing, or is
accepted with its bytes copied to behind the new length. -/
theorem append_cases :
    (Refuses self size ∧ listAppend self data size = .ok (self, -1)) ∨
    (¬Refuses self size ∧ self.len + size = 0 ∧ self.data ≠ none ∧
      listAppend self data size =
        .error (.exit "list_append" "Could not allocate list data buffer to the heap")) ∨
    (¬Refuses self size ∧ (self.len + size = 0 → self.data = none) ∧
      ∃ block : Block, block.size = (if self.data = none then size else self.len + size).toNat ∧
        listAppend self data size = .ok (⟨self.cap, self.len + size, some
          { block with
            bytes := writeAt block.bytes (appendOffset self size) (data.take size.toNat) }⟩,
          0)) := by
  unfold listAppend
  by_cases hrefuses : Refuses self size
  · exact .inl ⟨hrefuses, if_pos hrefuses⟩
  have hguard : ¬(self.cap > 0 ∧ size + self.len > self.cap) := hrefuses
  rw [if_neg hguard]
  right
  cases hdata : self.data with
  | none =>
      right
      exact ⟨hrefuses, fun _ => rfl, ⟨size.toNat, fun _ => 0⟩, rfl, rfl⟩
  | some old =>
      by_cases hzero : self.len + size = 0
      · left
        refine ⟨hrefuses, hzero, Option.some_ne_none old, ?_⟩
        simp [realloc, hzero]
      · right
        have hne : (self.len + size).toNat ≠ 0 := fun h => hzero (UInt64.toNat_inj.mp h)
        obtain ⟨block, hblock, hsize⟩ : ∃ block : Block,
            realloc old (self.len + size).toNat = some block ∧
              block.size = (self.len + size).toNat := ⟨_, if_neg hne, rfl⟩
        refine ⟨hrefuses, fun h => absurd h hzero, block, hsize, ?_⟩
        simp only [hblock]

end Append

end Doctrina.ByteList
