/-!
# How a call can fail to return, and heap blocks of bytes

A C function that leaves through `exit` or performs an access the language
leaves undefined ends in a `Fault`.  A heap block is the list of its bytes; a
pointer to one is `none` when it is NULL.
-/

namespace Doctrina

inductive Fault
  /-- `fprintf(stderr, "%s(): %s\n", …)` followed by `exit(EXIT_FAILURE)`. -/
  | exit (function message : String)
  | nullPointer
  | outOfBounds
  /-- An address that is not live, or not live as an object of this type. -/
  | badAddress
  /-- The bound on the steps of a recursion or a loop was reached. -/
  | outOfFuel
  deriving DecidableEq, Repr

instance decidableEqExcept {ε α : Type} [DecidableEq ε] [DecidableEq α] :
    DecidableEq (Except ε α)
  | .error e, .error e' => decidable_of_iff (e = e') ⟨congrArg _, Except.error.inj⟩
  | .ok a, .ok a' => decidable_of_iff (a = a') ⟨congrArg _, Except.ok.inj⟩
  | .error _, .ok _ => .isFalse (by simp)
  | .ok _, .error _ => .isFalse (by simp)

theorem Except.bind_eq_ok {ε α β : Type} {x : Except ε α} {f : α → Except ε β} {b : β}
    (h : x >>= f = .ok b) : ∃ a, x = .ok a ∧ f a = .ok b := by
  cases x with
  | error e => cases h
  | ok a => exact ⟨a, rfl, h⟩

theorem Except.map_eq_ok {ε α β : Type} {x : Except ε α} {f : α → β} {b : β}
    (h : x.map f = .ok b) : ∃ a, x = .ok a ∧ f a = b := by
  cases x with
  | error e => cases h
  | ok a => exact ⟨a, rfl, Except.ok.inj h⟩

theorem Except.map_bind {ε α β γ : Type} (x : Except ε α) (f : α → Except ε β) (g : β → γ) :
    (x >>= f).map g = x >>= fun a => (f a).map g := by
  cases x <;> rfl

theorem Except.bind_map {ε α β γ : Type} (x : Except ε α) (f : α → β) (g : β → Except ε γ) :
    x.map f >>= g = x >>= fun a => g (f a) := by
  cases x <;> rfl

theorem Except.map_map {ε α β γ : Type} (x : Except ε α) (f : α → β) (g : β → γ) :
    (x.map f).map g = x.map fun a => g (f a) := by
  cases x <;> rfl

theorem Except.map_id' {ε α : Type} (x : Except ε α) : x.map (fun a => a) = x := by
  cases x <;> rfl

/-- The first `n` bytes behind a pointer. -/
def memcpyFrom (block : Option (List UInt8)) (n : Nat) : Except Fault (List UInt8) :=
  match block with
  | none => if n = 0 then .ok [] else .error .nullPointer
  | some bytes => if n ≤ bytes.length then .ok (bytes.take n) else .error .outOfBounds

/-- The `n` bytes of a block from an offset on. -/
def bytesAt (bytes : List UInt8) (offset n : Nat) : Except Fault (List UInt8) :=
  if offset + n ≤ bytes.length then .ok ((bytes.drop offset).take n) else .error .outOfBounds

/-- A block with the bytes from an offset on replaced by `data`. -/
def memcpyAt (bytes : List UInt8) (offset : Nat) (data : List UInt8) :
    Except Fault (List UInt8) :=
  if offset + data.length ≤ bytes.length then
    .ok (bytes.take offset ++ data ++ bytes.drop (offset + data.length))
  else .error .outOfBounds

/-- The block behind a pointer with its first bytes replaced by `data`. -/
def memcpyTo (block : Option (List UInt8)) (data : List UInt8) :
    Except Fault (Option (List UInt8)) :=
  match block with
  | none => if data = [] then .ok none else .error .nullPointer
  | some bytes => (memcpyAt bytes 0 data).map some

/-- `realloc` with memory available: the bytes up to the smaller size are
kept, and the bytes behind them stand for any.  A block resized to nothing is
freed and NULL returned. -/
def realloc (block : Option (List UInt8)) (size : Nat) : Option (List UInt8) :=
  match block with
  | none => some (List.replicate size 0)
  | some bytes =>
      if size = 0 then none
      else some (bytes.take size ++ List.replicate (size - bytes.length) 0)

theorem length_realloc (block : Option (List UInt8)) {size : Nat} (h : size ≠ 0) :
    ∃ bytes, realloc block size = some bytes ∧ bytes.length = size := by
  cases block with
  | none => exact ⟨_, rfl, List.length_replicate⟩
  | some bytes =>
      refine ⟨bytes.take size ++ List.replicate (size - bytes.length) 0, if_neg h, ?_⟩
      rw [List.length_append, List.length_take, List.length_replicate]
      omega

theorem memcpyTo_of_length_eq {bytes data : List UInt8} (h : bytes.length = data.length) :
    memcpyTo (some bytes) data = .ok (some data) := by
  simp [memcpyTo, memcpyAt, Nat.le_of_eq h.symm, List.drop_eq_nil_of_le (Nat.le_of_eq h),
    Except.map]

theorem length_memcpyAt {bytes data block : List UInt8} {offset : Nat}
    (h : memcpyAt bytes offset data = .ok block) : block.length = bytes.length := by
  unfold memcpyAt at h
  split at h
  · cases h
    simp only [List.length_append, List.length_take, List.length_drop]
    omega
  · cases h

theorem length_memcpyTo {block block' : Option (List UInt8)} {data : List UInt8}
    (h : memcpyTo block data = .ok block') :
    (block'.getD []).length = (block.getD []).length := by
  unfold memcpyTo at h
  cases block with
  | none =>
      dsimp only at h
      split at h
      · cases h
        rfl
      · cases h
  | some bytes =>
      obtain ⟨bytes', hcopy, rfl⟩ := Except.map_eq_ok h
      exact length_memcpyAt hcopy

theorem memcpyAt_append (bytes : List UInt8) {data rest : List UInt8}
    (h : rest.length = data.length) :
    memcpyAt (bytes ++ rest) bytes.length data = .ok (bytes ++ data) := by
  have hlen : bytes.length + data.length ≤ (bytes ++ rest).length := by
    rw [List.length_append]
    omega
  rw [memcpyAt, if_pos hlen, List.take_left' rfl, ← h, ← List.length_append,
    List.drop_length, List.append_nil]

end Doctrina
