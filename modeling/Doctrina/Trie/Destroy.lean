import Doctrina.Trie.Bounds
/-!
# trie_destroy

The destructor goes down from a node to each of its children before it frees
the node.  Nothing below one child is below another, so the subtrees can be
removed one after the other; the depth that the recursion needs is the length
of the longest word.
-/

namespace Doctrina.Trie

open Doctrina.Lib.Execution Doctrina.Lib.Walk

/-- A round of the loop over the children of a node. -/
def destroyChild (destroy : Store TrieNode → Option Addr → Except Fault (Store TrieNode))
    (self : Option Addr) (nodes : Store TrieNode) (i : Nat) : Except Fault (Store TrieNode) := do
  match ← childAt nodes self i with
  | none => return nodes
  | some child =>
      let nodes ← destroy nodes (some child)
      nodes.modify self (TrieNode.setChild i none)

/-- The first argument bounds the depth of the recursion. -/
def trieNodeDestroy : Nat → Store TrieNode → Option Addr → Except Fault (Store TrieNode)
  | 0, _, _ => .error .outOfFuel
  | _ + 1, nodes, none => .ok nodes
  | depth + 1, nodes, some a => do
      let nodes ← (List.range NUM_CHILDREN).foldlM
        (destroyChild (trieNodeDestroy depth) (some a)) nodes
      nodes.free a

/-- The recursion below the root may be `depth` calls deep. -/
def trieDestroy (depth : Nat) (nodes : Store TrieNode) (self : Option Addr) :
    Except Fault (Store TrieNode) :=
  match self with
  | none => .ok nodes
  | some a => do
      let nodes ← (List.range NUM_CHILDREN).foldlM
        (destroyChild (trieNodeDestroy depth) (some a)) nodes
      nodes.free a

/-- The nodes below `a` are a tree of live nodes. -/
structure Owned (nodes : Store TrieNode) (a : Addr) : Prop where
  unshared : Unshared (edge nodes) a
  live : ∀ p b, nodeAt nodes a p = some b → b ∈ nodes

/-- No path from `a` is longer than the recursion is deep. -/
def Within (depth : Nat) (nodes : Store TrieNode) (a : Addr) : Prop :=
  ∀ p b, nodeAt nodes a p = some b → p.length < depth

/-- What is below `a` is gone, and all else is as it was. -/
structure Removed (nodes : Store TrieNode) (a : Addr) (nodes' : Store TrieNode) : Prop where
  gone : ∀ p b, nodeAt nodes a p = some b → nodes'.lookup b = none
  kept : ∀ b, (∀ p, nodeAt nodes a p ≠ some b) → nodes'.lookup b = nodes.lookup b

/-- Below `a`, and below one of its first `i` children. -/
def Visited (nodes : Store TrieNode) (a : Addr) (i : Nat) (b : Addr) : Prop :=
  ∃ byte p, byte.toNat < i ∧ nodeAt nodes a (byte :: p) = some b

/-- The memory after the loop has come to the first `i` children. -/
structure Halfway (nodes : Store TrieNode) (a : Addr) (node : TrieNode) (i : Nat)
    (nodes' : Store TrieNode) : Prop where
  self : ∃ node', nodes'.lookup a = some node' ∧
    ∀ j, i ≤ j → node'.children[j]? = node.children[j]?
  gone : ∀ b, Visited nodes a i b → nodes'.lookup b = none
  kept : ∀ b, b ≠ a → ¬Visited nodes a i b → nodes'.lookup b = nodes.lookup b

section Below

variable {nodes nodes' : Store TrieNode} {a b c : Addr} {node : TrieNode} {byte : UInt8} {i : Nat}

theorem nodeAt_cons (hedge : edge nodes a byte = some c) (p : List UInt8) :
    nodeAt nodes a (byte :: p) = nodeAt nodes c p := by
  rw [nodeAt, walk_cons, hedge, Option.bind_some, nodeAt]

theorem nodeAt_single (hedge : edge nodes a byte = some c) : nodeAt nodes a [byte] = some c := by
  rw [nodeAt_cons hedge]
  rfl

theorem Owned.apart (h : Owned nodes a) (hedge : edge nodes a byte = some c) {p : List UInt8}
    (hb : nodeAt nodes c p = some b) : b ≠ a ∧ ¬Visited nodes a byte.toNat b := by
  rw [← nodeAt_cons hedge] at hb
  constructor
  · rintro rfl
    have hnil := h.unshared (byte :: p) [] b hb rfl
    cases hnil
  · rintro ⟨other, q, hlt, hq⟩
    have heq := h.unshared (byte :: p) (other :: q) b hb hq
    rw [List.cons.injEq] at heq
    rw [heq.1] at hlt
    exact Nat.lt_irrefl _ hlt

theorem Owned.child (h : Owned nodes a) (hedge : edge nodes a byte = some c) : Owned nodes c where
  unshared := h.unshared.below (nodeAt_single hedge)
  live p b hb := h.live (byte :: p) b (by rw [nodeAt_cons hedge, hb])

theorem halfway_zero (h : nodes.lookup a = some node) : Halfway nodes a node 0 nodes where
  self := ⟨node, h, fun _ _ => rfl⟩
  gone := by
    rintro b ⟨byte, p, hlt, _⟩
    exact absurd hlt (Nat.not_lt_zero _)
  kept _ _ _ := rfl

theorem Halfway.childAt (h : Halfway nodes a node byte.toNat nodes')
    (ha : nodes.lookup a = some node) (hbyte : byte.toNat < NUM_CHILDREN) :
    childAt nodes' (some a) byte.toNat = .ok (edge nodes a byte) := by
  obtain ⟨node', ha', hchildren⟩ := h.self
  rw [childAt_eq ha' hbyte, edge_eq ha', edge_eq ha, hchildren byte.toNat (Nat.le_refl _)]

theorem Halfway.nodeAt_child (h : Halfway nodes a node byte.toNat nodes') (howned : Owned nodes a)
    (hedge : edge nodes a byte = some c) (p : List UInt8) :
    nodeAt nodes' c p = nodeAt nodes c p := by
  apply walk_congr
  intro q b hb
  obtain ⟨hne, hnot⟩ := howned.apart hedge hb
  funext other
  rw [edge, edge, h.kept b hne hnot]

theorem Halfway.owned_child (h : Halfway nodes a node byte.toNat nodes') (howned : Owned nodes a)
    (hedge : edge nodes a byte = some c) : Owned nodes' c := by
  have hsame := h.nodeAt_child howned hedge
  have hchild := howned.child hedge
  constructor
  · intro p q b hp hq
    exact hchild.unshared p q b ((hsame p).symm.trans hp) ((hsame q).symm.trans hq)
  · intro p b hp
    rw [hsame] at hp
    obtain ⟨hne, hnot⟩ := howned.apart hedge hp
    obtain ⟨object, hobject⟩ := Finmap.mem_iff.mp (hchild.live p b hp)
    rw [← h.kept b hne hnot] at hobject
    exact Finmap.mem_of_lookup_eq_some hobject

theorem visited_succ (hbyte : byte.toNat = i) :
    Visited nodes a (i + 1) b ↔ Visited nodes a i b ∨ ∃ p, nodeAt nodes a (byte :: p) = some b := by
  constructor
  · rintro ⟨other, p, hlt, hp⟩
    by_cases heq : other.toNat < i
    · exact .inl ⟨other, p, heq, hp⟩
    · have hsame : other = byte := UInt8.toNat_inj.mp (by omega)
      exact .inr ⟨p, hsame ▸ hp⟩
  · rintro (⟨other, p, hlt, hp⟩ | ⟨p, hp⟩)
    · exact ⟨other, p, Nat.lt_succ_of_lt hlt, hp⟩
    · exact ⟨byte, p, by omega, hp⟩

theorem not_nodeAt_of_vacant (hedge : edge nodes a byte = none) (p : List UInt8) :
    nodeAt nodes a (byte :: p) ≠ some b := by
  rw [nodeAt, walk_cons, hedge, Option.bind_none]
  exact fun h => by cases h

theorem Halfway.vacant (h : Halfway nodes a node byte.toNat nodes')
    (hedge : edge nodes a byte = none) : Halfway nodes a node (byte.toNat + 1) nodes' := by
  obtain ⟨node', ha', hchildren⟩ := h.self
  have hvisited : ∀ b, Visited nodes a (byte.toNat + 1) b ↔ Visited nodes a byte.toNat b := by
    intro b
    rw [visited_succ rfl]
    exact or_iff_left fun ⟨p, hp⟩ => not_nodeAt_of_vacant hedge p hp
  refine ⟨⟨node', ha', fun j hj => hchildren j (by omega)⟩, fun b hb => ?_, fun b hne hb => ?_⟩
  · exact h.gone b ((hvisited b).mp hb)
  · exact h.kept b hne fun hold => hb ((hvisited b).mpr hold)

/-- The subtree of a child is removed, and the pointer to it cleared. -/
theorem Halfway.remove {nodes'' : Store TrieNode} {node' : TrieNode}
    (h : Halfway nodes a node byte.toNat nodes') (howned : Owned nodes a)
    (hedge : edge nodes a byte = some c) (ha' : nodes'.lookup a = some node')
    (hchildren : ∀ j, byte.toNat ≤ j → node'.children[j]? = node.children[j]?)
    (hremoved : Removed nodes' c nodes'') :
    Halfway nodes a node (byte.toNat + 1)
      (nodes''.insert a (node'.setChild byte.toNat none)) := by
  have hbelow : ∀ b, (∃ p, nodeAt nodes a (byte :: p) = some b) ↔
      ∃ p, nodeAt nodes' c p = some b := by
    intro b
    simp only [nodeAt_cons hedge, h.nodeAt_child howned hedge]
  refine ⟨⟨_, Finmap.lookup_insert _, fun j hj => ?_⟩, fun b hb => ?_, fun b hne hb => ?_⟩
  · have hne : byte.toNat ≠ j := by omega
    rw [TrieNode.setChild, Vector.getElem?_setIfInBounds, if_neg hne]
    exact hchildren j (by omega)
  · have hba : b ≠ a := by
      rintro rfl
      obtain ⟨other, p, _, hp⟩ := hb
      have hnil := howned.unshared (other :: p) [] b hp rfl
      cases hnil
    rw [Store.lookup_insert_eq, if_neg hba]
    rcases (visited_succ rfl).mp hb with hold | hnew
    · by_cases hbc : ∃ p, nodeAt nodes' c p = some b
      · obtain ⟨p, hp⟩ := hbc
        exact hremoved.gone p b hp
      · rw [hremoved.kept b fun p hp => hbc ⟨p, hp⟩]
        exact h.gone b hold
    · obtain ⟨p, hp⟩ := (hbelow b).mp hnew
      exact hremoved.gone p b hp
  · rw [visited_succ rfl, not_or] at hb
    rw [Store.lookup_insert_eq, if_neg hne, ← h.kept b hne hb.1]
    exact hremoved.kept b fun p hp => hb.2 ((hbelow b).mpr ⟨p, hp⟩)

end Below

/-- What the recursion does with a tree: it removes it, or runs out of depth. -/
def Destroys (depth : Nat) : Prop :=
  ∀ nodes a, Owned nodes a →
    (Within depth nodes a ∧ ∃ nodes', trieNodeDestroy depth nodes (some a) = .ok nodes' ∧
      Removed nodes a nodes') ∨
    ¬Within depth nodes a ∧ trieNodeDestroy depth nodes (some a) = .error .outOfFuel

def WithinTo (depth : Nat) (nodes : Store TrieNode) (a : Addr) (i : Nat) : Prop :=
  ∀ byte p b, byte.toNat < i → nodeAt nodes a (byte :: p) = some b → p.length < depth

section Loop

variable {depth : Nat} {nodes nodes' : Store TrieNode} {a c : Addr} {node : TrieNode}

theorem withinTo_succ {byte : UInt8} {i : Nat} (hbyte : byte.toNat = i) :
    WithinTo depth nodes a (i + 1) ↔ WithinTo depth nodes a i ∧
      ∀ p b, nodeAt nodes a (byte :: p) = some b → p.length < depth := by
  constructor
  · intro h
    exact ⟨fun other p b hlt hp => h other p b (by omega) hp,
      fun p b hp => h byte p b (by omega) hp⟩
  · rintro ⟨hbefore, hlast⟩ other p b hlt hp
    by_cases heq : other.toNat < i
    · exact hbefore other p b heq hp
    · have hsame : other = byte := UInt8.toNat_inj.mp (by omega)
      exact hlast p b (hsame ▸ hp)

theorem destroyChild_cases (hdestroys : Destroys depth) (howned : Owned nodes a)
    (ha : nodes.lookup a = some node) {byte : UInt8} (hbyte : byte.toNat < NUM_CHILDREN)
    (h : Halfway nodes a node byte.toNat nodes') :
    ((∀ p b, nodeAt nodes a (byte :: p) = some b → p.length < depth) ∧ ∃ nodes'',
      destroyChild (trieNodeDestroy depth) (some a) nodes' byte.toNat = .ok nodes'' ∧
        Halfway nodes a node (byte.toNat + 1) nodes'') ∨
    (¬∀ p b, nodeAt nodes a (byte :: p) = some b → p.length < depth) ∧
      destroyChild (trieNodeDestroy depth) (some a) nodes' byte.toNat = .error .outOfFuel := by
  simp only [destroyChild, h.childAt ha hbyte, bind, Except.bind]
  cases hedge : edge nodes a byte with
  | none =>
      refine .inl ⟨fun p b hp => ?_, nodes', rfl, h.vacant hedge⟩
      exact absurd hp (not_nodeAt_of_vacant hedge p)
  | some c =>
      have hsame := h.nodeAt_child howned hedge
      have hwithin : Within depth nodes' c ↔
          ∀ p b, nodeAt nodes a (byte :: p) = some b → p.length < depth := by
        simp only [Within, nodeAt_cons hedge, hsame]
      simp only
      rcases hdestroys nodes' c (h.owned_child howned hedge) with ⟨hdepth, nodes'', heq, hremoved⟩ | ⟨hdepth, heq⟩
      · obtain ⟨node', ha', hchildren⟩ := h.self
        have haway : nodes''.lookup a = some node' := by
          rw [hremoved.kept a fun p hp => ?_, ha']
          rw [hsame] at hp
          exact (howned.apart hedge hp).1 rfl
        refine .inl ⟨hwithin.mp hdepth, _, ?_, h.remove howned hedge ha' hchildren hremoved⟩
        rw [heq]
        exact Store.modify_eq haway _
      · refine .inr ⟨fun hall => hdepth (hwithin.mpr hall), ?_⟩
        rw [heq]

theorem destroyLoop_cases (hdestroys : Destroys depth) (howned : Owned nodes a)
    (ha : nodes.lookup a = some node) {i : Nat} (hi : i ≤ NUM_CHILDREN) :
    (WithinTo depth nodes a i ∧ ∃ nodes',
      (List.range i).foldlM (destroyChild (trieNodeDestroy depth) (some a)) nodes = .ok nodes' ∧
        Halfway nodes a node i nodes') ∨
    ¬WithinTo depth nodes a i ∧
      (List.range i).foldlM (destroyChild (trieNodeDestroy depth) (some a)) nodes =
        .error .outOfFuel := by
  induction i with
  | zero =>
      refine .inl ⟨fun byte p b hlt => absurd hlt (Nat.not_lt_zero _), nodes, rfl, ?_⟩
      exact halfway_zero ha
  | succ i ih =>
      have hlt : i < NUM_CHILDREN := hi
      have hbyte : (UInt8.ofNat i).toNat = i := by
        have hnum : NUM_CHILDREN = 255 := rfl
        rw [UInt8.toNat_ofNat']
        omega
      rw [List.range_succ, List.foldlM_append, withinTo_succ hbyte]
      rcases ih (Nat.le_of_lt hlt) with ⟨hwithin, nodes', hrun, hhalf⟩ | ⟨hwithin, hrun⟩
      · rw [hrun]
        rw [← hbyte] at hhalf hlt
        have hround := destroyChild_cases hdestroys howned ha hlt hhalf
        rw [hbyte] at hround
        rcases hround with ⟨hdepth, nodes'', heq, hnext⟩ | ⟨hdepth, heq⟩
        · refine .inl ⟨⟨hwithin, hdepth⟩, nodes'', ?_, hnext⟩
          simp only [List.foldlM_cons, List.foldlM_nil, heq, bind, Except.bind]
          rfl
        · refine .inr ⟨fun hall => hdepth hall.2, ?_⟩
          simp only [List.foldlM_cons, heq, bind, Except.bind]
      · refine .inr ⟨fun hall => hwithin hall.1, ?_⟩
        rw [hrun]
        rfl

theorem lt_of_nodeAt {byte : UInt8} {p : List UInt8} {b : Addr}
    (h : nodeAt nodes a (byte :: p) = some b) : byte.toNat < NUM_CHILDREN := by
  by_contra hlarge
  refine not_nodeAt_of_vacant ?_ p h
  rw [edge]
  cases nodes.lookup a with
  | none => rfl
  | some node =>
      rw [Option.bind_some, Vector.getElem?_eq_none (Nat.not_lt.mp hlarge)]
      rfl

theorem within_succ : Within (depth + 1) nodes a ↔ WithinTo depth nodes a NUM_CHILDREN := by
  constructor
  · intro h byte p b _ hp
    exact Nat.lt_of_succ_lt_succ (h (byte :: p) b hp)
  · intro h p b hp
    cases p with
    | nil => exact Nat.succ_pos depth
    | cons byte p => exact Nat.succ_lt_succ (h byte p b (lt_of_nodeAt hp) hp)

theorem Halfway.free (h : Halfway nodes a node NUM_CHILDREN nodes') :
    ∃ nodes'', nodes'.free a = .ok nodes'' ∧ Removed nodes a nodes'' := by
  obtain ⟨node', ha', _⟩ := h.self
  refine ⟨nodes'.erase a, Store.free_eq ha', fun p b hp => ?_, fun b hb => ?_⟩
  · rw [Store.lookup_erase_eq]
    by_cases hba : b = a
    · rw [if_pos hba]
    · rw [if_neg hba]
      cases p with
      | nil => exact absurd (Option.some.inj hp).symm hba
      | cons byte p => exact h.gone b ⟨byte, p, lt_of_nodeAt hp, hp⟩
  · have hba : b ≠ a := fun heq => hb [] (congrArg some heq.symm)
    rw [Store.lookup_erase_eq, if_neg hba]
    apply h.kept b hba
    rintro ⟨byte, p, _, hp⟩
    exact hb (byte :: p) hp

theorem destroys (depth : Nat) : Destroys depth := by
  induction depth with
  | zero =>
      intro nodes a _
      exact .inr ⟨fun h => absurd (h [] a rfl) (Nat.lt_irrefl 0), rfl⟩
  | succ depth ih =>
      intro nodes a howned
      obtain ⟨node, ha⟩ := Finmap.mem_iff.mp (howned.live [] a rfl)
      rw [within_succ]
      rcases destroyLoop_cases ih howned ha (Nat.le_refl NUM_CHILDREN) with
        ⟨hwithin, nodes', hrun, hhalf⟩ | ⟨hwithin, hrun⟩
      · obtain ⟨nodes'', hfree, hremoved⟩ := hhalf.free
        refine .inl ⟨hwithin, nodes'', ?_, hremoved⟩
        simp only [trieNodeDestroy, hrun, bind, Except.bind]
        exact hfree
      · refine .inr ⟨hwithin, ?_⟩
        simp only [trieNodeDestroy, hrun, bind, Except.bind]

end Loop

section Tries

variable {root : Addr} {nodes : Store TrieNode} {words : List (List UInt8)} {depth : Nat}

theorem within_iff (h : Spells root words nodes) :
    Within (depth + 1) nodes root ↔ ∀ k ∈ words, k.length ≤ depth := by
  constructor
  · intro hwithin k hk
    obtain ⟨a, ha⟩ := (h.path k).mpr (.inr ⟨k, hk, List.prefix_rfl⟩)
    exact Nat.lt_succ_iff.mp (hwithin k a ha)
  · intro hwords p a hp
    rcases (h.path p).mp ⟨a, hp⟩ with rfl | ⟨k, hk, hbelow⟩
    · exact Nat.succ_pos depth
    · exact Nat.lt_succ_of_le (hbelow.length_le.trans (hwords k hk))

theorem spells_destroy (h : Spells root words nodes) :
    ((∀ k ∈ words, k.length ≤ depth) ∧ trieDestroy depth nodes (some root) = .ok ∅) ∨
    (¬∀ k ∈ words, k.length ≤ depth) ∧
      trieDestroy depth nodes (some root) = .error .outOfFuel := by
  have howned : Owned nodes root := ⟨h.single, fun p b hp => (h.live b).mpr ⟨p, hp⟩⟩
  have heq : trieDestroy depth nodes (some root) =
      trieNodeDestroy (depth + 1) nodes (some root) := rfl
  rw [heq, ← within_iff h]
  rcases destroys (depth + 1) nodes root howned with ⟨hwithin, nodes', hok, hremoved⟩ | hdeep
  · refine .inl ⟨hwithin, ?_⟩
    rw [hok]
    congr 1
    apply Finmap.ext_lookup
    intro b
    rw [Finmap.lookup_empty]
    by_cases hb : b ∈ nodes
    · obtain ⟨p, hp⟩ := (h.live b).mp hb
      exact hremoved.gone p b hp
    · rw [hremoved.kept b fun p hp => hb ((h.live b).mpr ⟨p, hp⟩)]
      exact Finmap.lookup_eq_none.mpr hb
  · exact .inr hdeep

/-- After any calls that returned, the destructor frees every node of the trie,
each once, if the recursion may go as deep as the longest inserted word is
long; with less depth it does not return. -/
theorem destroy_frees_all {ops : List Op}
    (hops : AlongM (step root) (Allocated root) (created root) ops)
    (hrun : ops.foldlM (step root) (created root) = .ok nodes) (depth : Nat) :
    (trieDestroy depth nodes (some root) = .ok ∅ ↔ ∀ k ∈ inserted ops, k.length ≤ depth) ∧
      (trieDestroy depth nodes (some root) ≠ .ok ∅ →
        trieDestroy depth nodes (some root) = .error .outOfFuel) := by
  have hspells := spells_of_run (spells_created root) hops hrun
  rw [List.nil_append] at hspells
  rcases spells_destroy hspells with ⟨hshort, hok⟩ | ⟨hdeep, herror⟩
  · exact ⟨iff_of_true hok hshort, fun hne => absurd hok hne⟩
  · rw [herror]
    exact ⟨iff_of_false (fun h => by cases h) hdeep, fun _ => rfl⟩

/-- The words "te" and "tea" need a recursion of depth 3. -/
theorem destroy_frees_all_te : ∃ nodes,
    [Op.insert [116, 101, 0] [some 2, some 3], .insert [116, 101, 97, 0] [some 4]].foldlM (step 1)
      (created 1) = .ok nodes ∧ trieDestroy 3 nodes (some 1) = .ok ∅ := by
  have hops : AlongM (step 1) (Allocated 1) (created 1)
      [.insert [116, 101, 0] [some 2, some 3], .insert [116, 101, 97, 0] [some 4]] := by
    decide +kernel
  have hok : ([Op.insert [116, 101, 0] [some 2, some 3],
      .insert [116, 101, 97, 0] [some 4]].foldlM (step 1) (created 1)).isOk = true := by
    decide +kernel
  cases hrun : [Op.insert [116, 101, 0] [some 2, some 3],
      .insert [116, 101, 97, 0] [some 4]].foldlM (step 1) (created 1) with
  | error e =>
      rw [hrun] at hok
      cases hok
  | ok nodes =>
      have hwords : ∀ k ∈ inserted [.insert [116, 101, 0] [some 2, some 3],
          .insert [116, 101, 97, 0] [some 4]], k.length ≤ 3 := by
        simp [inserted, Op.inserts, word]
      exact ⟨nodes, rfl, (destroy_frees_all hops hrun 3).1.mpr hwords⟩

end Tries

end Doctrina.Trie
