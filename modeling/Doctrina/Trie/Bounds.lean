import Doctrina.Trie.Runs
/-!
# The children array under keys with any bytes

A byte of a key is an index into the `NUM_CHILDREN` = 255 children of a node,
and may be 255.  An insertion comes to every byte of its key, a search to those
up to the first one that has no child.
-/

namespace Doctrina.Trie

open Doctrina.Lib.Execution Doctrina.Lib.Walk

/-- The key ends with NUL, and `calloc` has a node for each byte that needs
one. -/
def Allocated (root : Addr) (nodes : Store TrieNode) : Op → Prop
  | .insert key answers => 0 ∈ key ∧ missing nodes root (word key) ≤ answers.length ∧
      answers.Nodup ∧ ∀ answer ∈ answers, Fresh nodes answer
  | .search key => 0 ∈ key

instance (root : Addr) (nodes : Store TrieNode) : DecidablePred (Allocated root nodes)
  | .insert key answers =>
      @instDecidableAnd (0 ∈ key) _ _ <| @instDecidableAnd _ _ _ <|
        @instDecidableAnd _ _ (List.nodupDecidable answers) (List.decidableBAll _ answers)
  | .search key => inferInstanceAs (Decidable (0 ∈ key))

/-- An inserted key has no byte 255, and in a searched one no byte 255 follows
the beginning of a word. -/
def Safe (words : List (List UInt8)) : Op → Prop
  | .insert key _ => ∀ byte ∈ word key, byte.toNat < NUM_CHILDREN
  | .search key => ∀ p byte q, word key = p ++ byte :: q → NUM_CHILDREN ≤ byte.toNat →
      p ∉ prefixes words

section Walks

variable {nodes : Store TrieNode} {a : Addr} {node : TrieNode} {byte : UInt8}

theorem childAt_outOfBounds (h : nodes.lookup a = some node) {index : Nat}
    (hindex : NUM_CHILDREN ≤ index) : childAt nodes (some a) index = .error .outOfBounds := by
  have hnone : node.children[index]? = none := Vector.getElem?_eq_none hindex
  simp only [childAt, Store.load_eq h, hnone, bind, Except.bind]

theorem ne_zero_of_large (h : NUM_CHILDREN ≤ byte.toNat) : byte ≠ 0 := by
  intro hzero
  rw [hzero] at h
  exact absurd h (by decide)

theorem trieInsertLoop_outOfBounds (h : nodes.lookup a = some node)
    (hbyte : NUM_CHILDREN ≤ byte.toNat) (key : List UInt8) (answers : List (Option Addr)) :
    trieInsertLoop nodes (some a) (byte :: key) answers = .error .outOfBounds := by
  rw [trieInsertLoop, if_neg (ne_zero_of_large hbyte)]
  simp only [childAt_outOfBounds h hbyte, bind, Except.bind]

theorem trieSearch_outOfBounds (h : nodes.lookup a = some node)
    (hbyte : NUM_CHILDREN ≤ byte.toNat) (key : List UInt8) :
    trieSearch nodes (some a) (byte :: key) = .error .outOfBounds := by
  rw [trieSearch, if_neg (ne_zero_of_large hbyte)]
  simp only [childAt_outOfBounds h hbyte, bind, Except.bind]

theorem missing_append_le (nodes : Store TrieNode) (a : Addr) (p q : List UInt8) :
    missing nodes a p ≤ missing nodes a (p ++ q) := by
  induction p generalizing a with
  | nil => exact Nat.zero_le _
  | cons byte p ih =>
      rw [List.cons_append, missing, missing]
      split
      · rw [List.length_append]
        omega
      · next b _ => exact ih b

theorem forall_split_cons_iff {α : Type*} {Q : List α → α → Prop} {first : α} {rest : List α} :
    (∀ p x q, first :: rest = p ++ x :: q → Q p x) ↔
      Q [] first ∧ ∀ p x q, rest = p ++ x :: q → Q (first :: p) x := by
  constructor
  · intro h
    exact ⟨h [] first rest rfl, fun p x q heq => h (first :: p) x q (by rw [heq]; rfl)⟩
  · rintro ⟨hfirst, hrest⟩ p x q heq
    cases p with
    | nil =>
        obtain ⟨rfl, _⟩ := List.cons_eq_cons.mp heq
        exact hfirst
    | cons y p =>
        obtain ⟨rfl, htail⟩ := List.cons_eq_cons.mp heq
        exact hrest p x q htail

theorem exists_first_large {key : List UInt8}
    (h : ¬∀ byte ∈ key, byte.toNat < NUM_CHILDREN) :
    ∃ p byte q, key = p ++ byte :: q ∧ NUM_CHILDREN ≤ byte.toNat ∧
      ∀ other ∈ p, other.toNat < NUM_CHILDREN := by
  induction key with
  | nil => simp at h
  | cons byte key ih =>
      by_cases hbyte : byte.toNat < NUM_CHILDREN
      · obtain ⟨p, large, q, heq, hlarge, hp⟩ := ih fun hall => h (by simpa [hbyte] using hall)
        refine ⟨byte :: p, large, q, by rw [heq, List.cons_append], hlarge, ?_⟩
        exact List.forall_mem_cons.mpr ⟨hbyte, hp⟩
      · exact ⟨[], byte, key, rfl, Nat.not_lt.mp hbyte, by simp⟩

end Walks

section Calls

variable {root : Addr} {nodes : Store TrieNode} {words : List (List UInt8)}
  {paths ends : Set (List UInt8)}

/-- A search leaves the children array exactly if it meets a byte 255 at a
node. -/
theorem Holds.search_in_bounds_iff (h : Holds nodes root paths ends) {path rest : List UInt8}
    {a : Addr} (hrest : ∀ byte ∈ rest, byte ≠ 0) (hpath : nodeAt nodes root path = some a)
    (tail : List UInt8) :
    trieSearch nodes (some a) (rest ++ 0 :: tail) ≠ .error .outOfBounds ↔
      ∀ p byte q, rest = p ++ byte :: q → NUM_CHILDREN ≤ byte.toNat → path ++ p ∉ paths := by
  induction rest generalizing path a with
  | nil =>
      obtain ⟨node, ha⟩ := h.lookup_of_nodeAt hpath
      refine iff_of_true ?_ (by simp)
      rw [List.nil_append, trieSearch, if_pos rfl, Store.load_eq ha]
      exact fun herror => by cases herror
  | cons byte rest ih =>
      obtain ⟨node, ha⟩ := h.lookup_of_nodeAt hpath
      have hmem : path ∈ paths := (h.path path).mp ⟨a, hpath⟩
      have hbyte := hrest byte (by simp)
      rw [List.cons_append, forall_split_cons_iff, List.append_nil]
      by_cases hlarge : NUM_CHILDREN ≤ byte.toNat
      · rw [trieSearch_outOfBounds ha hlarge]
        exact iff_of_false (fun hne => hne rfl) fun hall => hall.1 hlarge hmem
      · -- the first byte is in bounds: what matters is what follows it
        have hlt := Nat.not_le.mp hlarge
        have hnext := Holds.nodeAt_concat hpath byte
        rw [and_iff_right (fun hle => absurd hle hlarge), trieSearch, if_neg hbyte]
        simp only [childAt_eq ha hlt, bind, Except.bind]
        cases hedge : edge nodes a byte with
        | none =>
            rw [hedge] at hnext
            refine iff_of_true (fun herror => by cases herror) fun p large q _ _ hp => ?_
            have hprefix : path ++ [byte] <+: path ++ byte :: p := by simp
            obtain ⟨b, hb⟩ := (h.path _).mpr (h.mem_of_prefix hprefix hp)
            rw [hnext] at hb
            cases hb
        | some b =>
            rw [hedge] at hnext
            have hbytes : ∀ other ∈ rest, other ≠ 0 := fun other hother =>
              hrest other (by simp [hother])
            simpa only [List.append_assoc, List.singleton_append] using ih hbytes hnext

theorem insert_outOfBounds (h : Spells root words nodes) {key : List UInt8}
    {answers : List (Option Addr)} (hop : Allocated root nodes (.insert key answers))
    (hlarge : ¬∀ byte ∈ word key, byte.toNat < NUM_CHILDREN) :
    step root nodes (.insert key answers) = .error .outOfBounds := by
  obtain ⟨hzero, hmissing, hnodup, hfresh⟩ := hop
  obtain ⟨tail, htail⟩ := word_append hzero
  obtain ⟨p, byte, q, hword, hbyte, hp⟩ := exists_first_large hlarge
  have hroot : nodeAt nodes root [] = some root := rfl
  have hbytes : ∀ other ∈ p, other ≠ 0 ∧ other.toNat < NUM_CHILDREN := fun other hother =>
    ⟨ne_zero_of_mem_word (hword ▸ List.mem_append_left _ hother), hp other hother⟩
  have hfewer : missing nodes root p ≤ answers.length := by
    rw [hword] at hmissing
    exact (missing_append_le nodes root p (byte :: q)).trans hmissing
  obtain ⟨nodes', a, answers', hloop, hpath, hholds⟩ :=
    h.trieInsertLoop_append hbytes hroot hfewer hnodup hfresh (byte :: q ++ 0 :: tail)
  obtain ⟨node, ha⟩ := hholds.lookup_of_nodeAt hpath
  have hfault : trieInsertLoop nodes (some root) key answers = .error .outOfBounds := by
    rw [htail, hword, List.append_assoc, hloop, List.cons_append,
      trieInsertLoop_outOfBounds ha hbyte]
  simp only [step, trieInsert, hfault, bind, Except.bind]

theorem in_bounds_iff (h : Spells root words nodes) {op : Op} (hop : Allocated root nodes op) :
    step root nodes op ≠ .error .outOfBounds ↔ Safe words op := by
  cases op with
  | insert key answers =>
      by_cases hsafe : ∀ byte ∈ word key, byte.toNat < NUM_CHILDREN
      · refine iff_of_true ?_ hsafe
        obtain ⟨hzero, hrest⟩ := hop
        obtain ⟨nodes', hstep, _⟩ := step_insert h ⟨⟨hzero, hsafe⟩, hrest⟩
        rw [hstep]
        exact fun herror => by cases herror
      · exact iff_of_false (fun hne => hne (insert_outOfBounds h hop hsafe)) hsafe
  | search key =>
      obtain ⟨tail, htail⟩ := word_append hop
      have hroot : nodeAt nodes root [] = some root := rfl
      have hbytes : ∀ byte ∈ word key, byte ≠ 0 := fun byte hbyte => ne_zero_of_mem_word hbyte
      have hsearch := h.search_in_bounds_iff hbytes hroot tail
      rw [← htail] at hsearch
      rw [Safe, step]
      refine Iff.trans (not_congr ?_) hsearch
      cases trieSearch nodes (some root) key <;> simp [Except.map]

theorem spells_of_ok (h : Spells root words nodes) {op : Op} (hop : Allocated root nodes op)
    {nodes' : Store TrieNode} (hstep : step root nodes op = .ok nodes') :
    Spells root (words ++ op.inserts.toList) nodes' := by
  cases op with
  | insert key answers =>
      have hsafe : ∀ byte ∈ word key, byte.toNat < NUM_CHILDREN := by
        apply (in_bounds_iff h hop).mp
        rw [hstep]
        exact fun herror => by cases herror
      obtain ⟨hzero, hrest⟩ := hop
      obtain ⟨nodes'', heq, hspells⟩ := step_insert h ⟨⟨hzero, hsafe⟩, hrest⟩
      rw [hstep, Except.ok.injEq] at heq
      rw [heq]
      exact hspells
  | search key =>
      obtain ⟨_, _, rfl⟩ := Except.map_eq_ok hstep
      rw [Op.inserts, Option.toList_none, List.append_nil]
      exact h

theorem spells_of_run (h : Spells root words nodes) {ops : List Op} {nodes' : Store TrieNode}
    (hops : AlongM (step root) (Allocated root) nodes ops)
    (hrun : ops.foldlM (step root) nodes = .ok nodes') :
    Spells root (words ++ inserted ops) nodes' := by
  induction ops generalizing nodes words with
  | nil =>
      cases hrun
      rw [inserted, List.filterMap_nil, List.append_nil]
      exact h
  | cons op ops ih =>
      obtain ⟨hop, htail⟩ := (alongM_cons nodes op ops).mp hops
      obtain ⟨next, hnext, hrest⟩ := foldlM_cons_ok.mp hrun
      have hspells := ih (spells_of_ok h hop hnext) (htail next hnext) hrest
      have hwords : words ++ op.inserts.toList ++ inserted ops = words ++ inserted (op :: ops) := by
        rw [List.append_assoc]
        cases op <;> rfl
      rwa [hwords] at hspells

end Calls

variable {root : Addr} {nodes : Store TrieNode}

/-- On every trie that calls with keys of any bytes lead to, the accesses of a
next call are in bounds if and only if it is an insertion of a key without the
byte 255, or a search for a key in which no byte 255 follows the beginning of an
inserted word. -/
theorem child_in_bounds_iff {ops : List Op}
    (hops : AlongM (step root) (Allocated root) (created root) ops)
    (hrun : ops.foldlM (step root) (created root) = .ok nodes) {op : Op}
    (hop : Allocated root nodes op) :
    step root nodes op ≠ .error .outOfBounds ↔ Safe (inserted ops) op := by
  have hspells := spells_of_run (spells_created root) hops hrun
  rw [List.nil_append] at hspells
  exact in_bounds_iff hspells hop

/-- A trie with the word "te", and a search that stops before its byte 255. -/
theorem child_in_bounds_iff_te :
    ∃ nodes, [Op.insert [116, 101, 0] [some 2, some 3]].foldlM (step 1) (created 1) =
        .ok nodes ∧
      (step 1 nodes (.search [116, 97, 255, 0]) ≠ .error .outOfBounds ↔
        Safe (inserted [.insert [116, 101, 0] [some 2, some 3]])
          (.search [116, 97, 255, 0])) := by
  have hops : AlongM (step 1) (Allocated 1) (created 1)
      [.insert [116, 101, 0] [some 2, some 3]] := by
    decide +kernel
  have hok : ([Op.insert [116, 101, 0] [some 2, some 3]].foldlM (step 1) (created 1)).isOk =
      true := by
    decide +kernel
  cases hrun : [Op.insert [116, 101, 0] [some 2, some 3]].foldlM (step 1) (created 1) with
  | error e =>
      rw [hrun] at hok
      cases hok
  | ok nodes =>
      have hop : Allocated 1 nodes (.search [116, 97, 255, 0]) := by
        change (0 : UInt8) ∈ [116, 97, 255, 0]
        decide
      exact ⟨nodes, rfl, child_in_bounds_iff hops hrun hop⟩

/-- A search of a new trie for a key of one byte 255. -/
theorem child_out_of_bounds :
    ¬∀ (root : Addr) (nodes : Store TrieNode) (ops : List Op) (op : Op),
      AlongM (step root) (Allocated root) (created root) ops →
        ops.foldlM (step root) (created root) = .ok nodes → Allocated root nodes op →
          step root nodes op ≠ .error .outOfBounds := by
  intro h
  have hop : Allocated 1 (created 1) (.search [255, 0]) := by
    change (0 : UInt8) ∈ [255, 0]
    decide
  have hroot : (created 1).lookup 1 = some .zero := Finmap.lookup_insert _
  apply h 1 (created 1) [] (.search [255, 0]) trivial rfl hop
  rw [step, trieSearch_outOfBounds hroot (by decide)]
  rfl

end Doctrina.Trie
