import FirmwareLift.Proofs.FlowGraph.Blocks
import FirmwareLift.Proofs.OrderedSet
import Mathlib.Logic.Relation

/-!
# Reachable blocks

Paths along the edges of a graph, the blocks that paths from the entry lead to, and the edges that
leave these. The edges of the graph of a listing never leave the graph.
-/

namespace FirmwareLift.FlowGraph

section

variable (g : FlowGraph)

def Leads (a b : BlockId) : Prop :=
  b ∈ g.successors a

/-- There is a path from one block to the other, maybe an empty one. -/
def Reaches : BlockId → BlockId → Prop :=
  Relation.ReflTransGen g.Leads

def reachable : Set BlockId :=
  {id | ∃ entry, g.entry = some entry ∧ g.Reaches entry id}

def reachableEdges : Set (BlockId × BlockId) :=
  {edge | edge.1 ∈ g.reachable ∧ g.Leads edge.1 edge.2}

end

variable {g : FlowGraph}

theorem Leads.source_lt {a b : BlockId} (h : g.Leads a b) : a < g.count := by
  by_contra hge
  rw [Leads, successors_eq_nil (Nat.not_lt.1 hge)] at h
  cases h

theorem Leads.mem_reachable {a b : BlockId} (h : g.Leads a b) (ha : a ∈ g.reachable) :
    b ∈ g.reachable := by
  obtain ⟨entry, hentry, hreaches⟩ := ha
  exact ⟨entry, hentry, hreaches.tail h⟩

theorem Indexed.leads_iff (hg : g.Indexed) {b : Block} (hb : b ∈ g.blocks) {id : BlockId} :
    g.Leads b.id id ↔ id ∈ b.successors := by
  rw [← hg.successors_id hb]
  rfl

theorem Reaches.mem_of_closed {ids : List BlockId} {a b : BlockId} (h : g.Reaches a b)
    (hclosed : ∀ x ∈ ids, ∀ y ∈ g.successors x, y ∈ ids) (ha : a ∈ ids) : b ∈ ids := by
  induction h with
  | refl => exact ha
  | tail _ hedge ih => exact hclosed _ ih _ hedge

theorem ncard_reachableEdges {ids : List BlockId} (hnodup : ids.Nodup)
    (hmem : ∀ id, id ∈ ids ↔ id ∈ g.reachable) (hedges : ∀ id, (g.successors id).Nodup) :
    g.reachableEdges.ncard = (ids.flatMap g.successors).length := by
  have hpairs : (ids.flatMap fun a => (g.successors a).map (a, ·)).Nodup := by
    rw [List.nodup_flatMap]
    refine ⟨fun a _ => (hedges a).map (Prod.mk_right_injective a), hnodup.imp fun hab => ?_⟩
    simp only [Function.onFun, List.disjoint_left, List.mem_map, not_exists, not_and]
    rintro edge ⟨b, -, rfl⟩ c - heq
    exact hab (congrArg Prod.fst heq).symm
  have hset : ∀ edge, (edge ∈ ids.flatMap fun a => (g.successors a).map (a, ·)) ↔
      edge ∈ g.reachableEdges := by
    rintro ⟨a, b⟩
    simp [reachableEdges, Leads, hmem]
  rw [ncard_eq_length hpairs hset]
  simp [List.length_flatMap]

/-! ## Graphs of listings -/

variable {listing : List Instruction}

theorem Indexed.exists_block?_of_blockAt? (hg : g.Indexed) {a : Address} {id : BlockId}
    (h : g.blockAt? a = some id) : ∃ b, g.block? id = some b :=
  (startOf?_eq_some.1 (hg.startOf?_of_blockAt? h)).imp fun _ hb => hb.1

theorem exists_block?_of_mem_follow {b : Block} {id : BlockId} (hg : g.Indexed)
    (h : id ∈ g.follow b) : ∃ target, g.block? id = some target := by
  have hlookup : ∀ {a : Option Address}, id ∈ (a.bind g.blockAt?).toList →
      ∃ target, g.block? id = some target := by
    intro a ha
    obtain ⟨address, -, hid⟩ := Option.bind_eq_some_iff.1 (Option.mem_toList.1 ha)
    exact hg.exists_block?_of_blockAt? hid
  have hnext : ∀ {a : Address}, id ∈ (g.blockAt? a).toList → ∃ target, g.block? id = some target :=
    fun ha => hg.exists_block?_of_blockAt? (Option.mem_toList.1 ha)
  unfold follow at h
  split at h
  · simp at h
  · simp only at h
    split at h
    · simp at h
    · exact hlookup h
    · rcases List.mem_append.1 h with h | h
      · exact hlookup h
      · exact hnext h
    · split at h
      · exact hnext h
      · exact hlookup h
    · exact hnext h
    · exact hnext h

theorem exists_block?_of_mem_successors {id target : BlockId}
    (h : target ∈ (ofListing listing).successors id) :
    ∃ b, (ofListing listing).block? target = some b := by
  cases hb : (ofListing listing).block? id with
  | none => simp [successors, hb] at h
  | some b =>
      simp only [successors, hb, Option.elim_some] at h
      rw [successors_ofListing hb, List.mem_eraseDups] at h
      exact exists_block?_of_mem_follow (indexed_ofListing listing) h

theorem nodup_successors_ofListing (id : BlockId) :
    ((ofListing listing).successors id).Nodup := by
  cases hb : (ofListing listing).block? id with
  | none => simp [successors, hb]
  | some b =>
      simp only [successors, hb, Option.elim_some]
      rw [successors_ofListing hb]
      exact nodup_eraseDups _

end FirmwareLift.FlowGraph
