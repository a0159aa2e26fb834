import Doctrina.Lib.Execution
import Doctrina.Set.Placement
/-!
# The buffer of set_getall

Every round of the loop allocates a copy of a key, makes room for it at the end
of the buffer, which may move, and frees the copy.  The loop over the objects
and the loop of `Set.Basic` go together, and all that is left behind is the
buffer.
-/

namespace Doctrina.Set

open Doctrina.Internal Doctrina.Lib.Cells Doctrina.Lib.Execution

/-- Memory is available in a round of `set_getall` that copies a key. -/
def Available (buckets : Option Addr) (rounds : Nat → Round) (state : Memory.Getall) (i : Nat) :
    Prop :=
  state.memory.entry buckets i = .ok none ∨
    Fresh state.memory (rounds i).key ∧ Resized state.memory state.data (rounds i).data ∧
      (rounds i).data ≠ (rounds i).key

instance (buckets : Option Addr) (rounds : Nat → Round) (state : Memory.Getall) :
    DecidablePred (Available buckets rounds state) :=
  fun _ => inferInstanceAs (Decidable (_ ∨ _ ∧ _ ∧ _))

/-- Where the buffer is after a round. -/
def getallAddress (self : SetT) (rounds : Nat → Round) (buffer : Option Addr) (i : Nat) :
    Option Addr :=
  match self.bucket i with
  | none => buffer
  | some _ => (rounds i).data

/-- The locals of the loop of `Set.Basic`, and where the buffer is. -/
def getallBeside (self : SetT) (rounds : Nat → Round)
    (locals : (Option (List UInt8) × Nat) × Option Addr) (i : Nat) :
    Except Fault ((Option (List UInt8) × Nat) × Option Addr) :=
  (getallStep locals.1 (self.bucket i)).map fun locals' =>
    (locals', getallAddress self rounds locals.2 i)

section Round

variable {memory : Memory} {cells : Cells Fields} {data : Option (Addr × List UInt8)}

theorem length_bucketKey {bucket : Bucket} {size : Option Nat} {bytes : List UInt8} {n : Nat}
    (h : bucketKey bucket size = .ok (bytes, n)) : bytes.length = n := by
  unfold bucketKey at h
  by_cases hkey : bucket.key = none
  · rw [if_pos hkey] at h
    cases h
  · rw [if_neg hkey] at h
    obtain ⟨read, hread, hsize⟩ := Except.bind_eq_ok h
    cases size with
    | none => cases hsize
    | some size =>
        cases hsize
        cases hblock : bucket.key with
        | none => exact absurd hblock hkey
        | some key =>
            have hlen : bucket.keylen = key.length := by
              rw [bucket.keylen_eq, hblock, Option.getD_some]
            rw [hblock, memcpyFrom, hlen, if_pos (Nat.le_refl _)] at hread
            cases hread
            rw [List.take_length, hlen]

theorem resized_of_cons {memory' : Memory} {old answer : Option Addr} {k : Addr}
    {v : Object Fields} (h : Exactly memory cells) (h' : Exactly memory' ((k, v) :: cells))
    (hanswer : Resized memory old answer) (hne : answer ≠ some k) :
    Resized memory' old answer := by
  rcases hanswer with hfresh | hold
  · obtain ⟨b, rfl, hb⟩ := fresh_iff.mp hfresh
    refine .inl (fresh_iff.mpr ⟨b, rfl, fun hmem => ?_⟩)
    rw [h'.mem_iff, List.map_cons, List.mem_cons, ← h.mem_iff] at hmem
    rcases hmem with rfl | hmem
    · exact hne rfl
    · exact hb hmem
  · exact .inr hold

theorem getallBuffer_exactly (h : Exactly memory (blockCell data ++ cells)) (size overall : Nat)
    {answer : Option Addr} (hanswer : Resized memory (data.map Prod.fst) answer) :
    match getallBuffer (data.map Prod.snd) size overall with
    | .ok bytes => ∃ (memory' : Memory) (b : Addr), answer = some b ∧
        Memory.getallBuffer memory (data.map Prod.fst) size overall answer = .ok (memory', b) ∧
          Exactly memory' ((b, .block bytes) :: cells)
    | .error e =>
        Memory.getallBuffer memory (data.map Prod.fst) size overall answer = .error e := by
  cases data with
  | none =>
      obtain ⟨b, rfl, hb⟩ : ∃ b, answer = some b ∧ b ∉ memory := by
        rcases hanswer with hfresh | ⟨hne, heq⟩
        · exact fresh_iff.mp hfresh
        · exact absurd heq hne
      exact ⟨_, b, rfl, rfl, h.insert hb _⟩
  | some block =>
      have hrealloc := reallocate_cell h overall hanswer
      simp only [Option.map_some] at hrealloc ⊢
      simp only [getallBuffer, Memory.getallBuffer, bind, Except.bind]
      cases hcontent : realloc (some block.2) overall with
      | none =>
          rw [hcontent] at hrealloc
          obtain ⟨memory', heq⟩ := hrealloc
          simp only [heq]
      | some bytes =>
          rw [hcontent] at hrealloc
          obtain ⟨memory', b, rfl, heq, hexactly⟩ := hrealloc
          simp only [heq]
          exact ⟨memory', b, rfl, rfl, hexactly⟩

theorem getallCopy_exactly {b k : Addr} {block bytes : List UInt8}
    (h : Exactly memory ((b, .block block) :: (k, .block bytes) :: cells)) (offset : Nat) :
    match memcpyAt block offset bytes with
    | .ok block' => ∃ memory' : Memory,
        Memory.getallCopy memory b offset (some k) bytes.length = .ok memory' ∧
          Exactly memory' ((b, .block block') :: cells)
    | .error e => Memory.getallCopy memory b offset (some k) bytes.length = .error e := by
  have hcopy := copyTo_cell h offset bytes
  simp only [Memory.getallCopy, block_eq (h.perm (List.Perm.swap _ _ _)), memcpyFrom,
    if_pos (Nat.le_refl _), List.take_length, bind, Except.bind]
  cases hcontent : memcpyAt block offset bytes with
  | error e =>
      rw [hcontent] at hcopy
      simp only [hcopy]
  | ok block' =>
      rw [hcontent] at hcopy
      obtain ⟨memory₁, heq, hexactly₁⟩ := hcopy
      obtain ⟨memory₂, hfree, hexactly₂⟩ := free_cell (hexactly₁.perm (List.Perm.swap _ _ _))
      simp only [heq]
      exact ⟨memory₂, hfree, hexactly₂⟩

end Round

section Loop

variable {placement : Placement Placed} {frame : Cells Fields}

/-- The locals of the loop over the objects are those of the loop over the set,
and the buffer is the one object that was added. -/
def Between (placement : Placement Placed) (frame : Cells Fields)
    (locals : (Option (List UInt8) × Nat) × Option Addr) (state : Memory.Getall) : Prop :=
  ∃ data : Option (Addr × List UInt8), locals = ((data.map Prod.snd, state.overall), state.data) ∧
    state.data = data.map Prod.fst ∧
    Exactly state.memory (blockCell data ++ (placement.cells layout ++ frame))

theorem getallStep_matched {rounds : Nat → Round}
    {locals : (Option (List UInt8) × Nat) × Option Addr} {state : Memory.Getall}
    (h : Between placement frame locals state) {i : Nat} (hi : i < placement.table.size.toNat)
    (havailable : Available (some placement.array) rounds state i) :
    Matched (Between placement frame)
      (getallBeside (contents placement) rounds locals i)
      (Memory.getallStep (some placement.array) rounds state i) := by
  obtain ⟨data, rfl, hdata, hexactly⟩ := h
  have hfront : (blockCell data ++ (placement.cells layout ++ frame)).Perm
      (placement.cells layout ++ (blockCell data ++ frame)) := by
    rw [← List.append_assoc, ← List.append_assoc]
    exact List.perm_append_comm.append_right frame
  have hentry := entry_eq (hexactly.perm hfront) hi
  have hbucket : (contents placement).bucket i =
      (placement.table.bucket i).map Placed.bucket := Table.bucket_map _ _ _
  simp only [getallBeside, getallAddress, hbucket, Memory.getallStep, hentry, bind, Except.bind]
  cases hplaced : placement.table.bucket i with
  | none => exact .ok ⟨data, rfl, hdata, hexactly⟩
  | some placed =>
      have hperm := hfront.trans (placed_front_perm placement (blockCell data ++ frame) hplaced)
      have hcells := hexactly.perm hperm
      obtain ⟨hkey, hresized, hne⟩ := havailable.resolve_left (by rw [hentry, hplaced]; simp)
      obtain ⟨k, hk, hkmem⟩ := fresh_iff.mp hkey
      rw [hk] at hne
      have hread := bucketKey_exactly hcells (some 0) hkmem
      simp only [Option.map_some, getallStep, hk, bind, Except.bind]
      have haddress : layout.address placed = placed.address := rfl
      rw [haddress]
      cases hbytes : bucketKey placed.bucket (some 0) with
      | error e =>
          rw [hbytes] at hread
          simp only [hread]
          exact .error e
      | ok read =>
          obtain ⟨bytes, n⟩ := read
          rw [hbytes] at hread
          obtain rfl := length_bucketKey hbytes
          obtain ⟨memory₁, heq₁, h₁⟩ := hread
          have hresized₁ := resized_of_cons hcells h₁ hresized hne
          rw [hdata] at hresized₁
          have hbuffer := getallBuffer_exactly
            (h₁.perm ((hperm.symm.cons _).trans List.perm_middle.symm)) bytes.length
            (state.overall + bytes.length) hresized₁
          simp only [heq₁, hdata]
          cases hroom : getallBuffer (data.map Prod.snd) bytes.length
              (state.overall + bytes.length) with
          | error e =>
              rw [hroom] at hbuffer
              simp only [hbuffer]
              exact .error e
          | ok block =>
              rw [hroom] at hbuffer
              obtain ⟨memory₂, b, hb, heq₂, h₂⟩ := hbuffer
              have hcopy := getallCopy_exactly h₂ (state.overall + bytes.length - bytes.length)
              rw [hb] at heq₂
              simp only [hb, heq₂]
              cases hcontent : memcpyAt block (state.overall + bytes.length - bytes.length)
                  bytes with
              | error e =>
                  rw [hcontent] at hcopy
                  simp only [hcopy]
                  exact .error e
              | ok block' =>
                  rw [hcontent] at hcopy
                  obtain ⟨memory₃, heq₃, h₃⟩ := hcopy
                  simp only [heq₃]
                  exact .ok ⟨some (b, block'), rfl, rfl, h₃⟩

/-- The buffer that `set_getall` returns is all that it leaves behind. -/
theorem setGetall_exactly {memory : Memory} (h : Exactly memory (placement.cells layout ++ frame))
    (overallSize : Option Nat) {rounds : Nat → Round}
    (havailable : AlongM (Memory.getallStep (some placement.array) rounds)
      (Available (some placement.array) rounds) ⟨memory, none, 0⟩
      (List.range placement.table.size.toNat)) :
    match setGetall (contents placement) overallSize with
    | .ok (some bytes, n) => ∃ (memory' : Memory) (b : Addr),
        (List.range placement.table.size.toNat).foldl
          (getallAddress (contents placement) rounds) none = some b ∧
        Memory.setGetall memory (some placement.address) overallSize rounds =
          .ok (memory', some b, n) ∧
        Exactly memory' ((b, .block bytes) :: (placement.cells layout ++ frame))
    | .ok (none, n) => Memory.setGetall memory (some placement.address) overallSize rounds =
        .ok (memory, none, n)
    | .error e => Memory.setGetall memory (some placement.address) overallSize rounds =
        .error e := by
  cases overallSize with
  | none => rfl
  | some size =>
      have hheader : memory.header (some placement.address) =
          .ok (some placement.array, placement.table.size) := header_eq h
      have hinside : AlongM (Memory.getallStep (some placement.array) rounds)
          (fun state i => i < placement.table.size.toNat ∧
            Available (some placement.array) rounds state i) ⟨memory, none, 0⟩
          (List.range placement.table.size.toNat) := by
        refine (alongM_congr fun state i hi => ?_).mp havailable
        exact (and_iff_right (List.mem_range.mp hi)).symm
      have hloops : Matched (Between placement frame)
          ((List.range placement.table.size.toNat).foldlM
            (getallBeside (contents placement) rounds) ((none, 0), none))
          ((List.range placement.table.size.toNat).foldlM
            (Memory.getallStep (some placement.array) rounds) ⟨memory, none, 0⟩) := by
        refine matched_foldlM (fun locals state i hbetween hi => ?_) ?_ hinside
        · exact getallStep_matched hbetween hi.1 hi.2
        · exact ⟨none, rfl, rfl, h⟩
      have hbuckets : (List.range placement.table.size.toNat).foldlM
          (getallBeside (contents placement) rounds) ((none, 0), none) =
            (setGetall (contents placement) (some size)).map fun locals =>
              (locals, (List.range placement.table.size.toNat).foldl
                (getallAddress (contents placement) rounds) none) := by
        rw [setGetall, Table.buckets_eq_map_range, List.foldlM_map]
        exact foldlM_beside (fun locals i => getallStep locals ((contents placement).bucket i))
          (getallAddress (contents placement) rounds) (none, 0) none _
      rw [hbuckets] at hloops
      simp only [Memory.setGetall, hheader, bind, Except.bind]
      cases hcontent : setGetall (contents placement) (some size) with
      | error e =>
          rw [hcontent] at hloops
          rw [hloops.of_error]
      | ok locals =>
          rw [hcontent] at hloops
          obtain ⟨state, hrun, data, hlocals, hdata, hexactly⟩ := hloops.of_ok
          rw [hrun]
          obtain ⟨rfl, haddress⟩ := Prod.mk.inj hlocals
          cases data with
          | none =>
              have hmemory : state.memory = memory := hexactly.unique h
              simp only [Option.map_none, hmemory, hdata]
              rfl
          | some block =>
              simp only [Option.map_some]
              refine ⟨state.memory, block.1, ?_, ?_, hexactly⟩
              · rw [haddress, hdata, Option.map_some]
              · simp only [hdata, Option.map_some]
                rfl

end Loop

end Doctrina.Set
