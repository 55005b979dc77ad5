import FirmwareLift.FlowGraph.Build
import FirmwareLift.FlowGraph.Loops
import Mathlib.Data.List.Induction

/-!
# Linking

Adding edges changes nothing but edges, and linking gives every block the successors that `follow`
names, each once and in that order.
-/

namespace FirmwareLift

/-- A block without its edges. -/
def Block.unlinked (b : Block) : Block :=
  { b with successors := [], predecessors := [] }

namespace FlowGraph

variable {g g' : FlowGraph}

/-! ## What edges do not change -/

def nodes (g : FlowGraph) : List Block :=
  g.blocks.map Block.unlinked

theorem nodes_addEdge (source target : BlockId) : (g.addEdge source target).nodes = g.nodes := by
  unfold addEdge
  split
  · rfl
  · apply List.ext_getElem?
    intro i
    simp only [nodes, List.getElem?_map, List.getElem?_modify]
    cases g.blocks[i]? with
    | none => rfl
    | some b =>
        simp only [Option.map_eq_map, Option.map_some]
        split <;> split <;> rfl

theorem nodes_addEdges (edges : List (BlockId × BlockId)) :
    (edges.foldl (fun g edge => g.addEdge edge.1 edge.2) g).nodes = g.nodes := by
  induction edges generalizing g with
  | nil => rfl
  | cons edge edges ih => exact ih.trans (nodes_addEdge edge.1 edge.2)

theorem nodes_ofListing (listing : List Instruction) :
    (ofListing listing).nodes = (ofSegments (leaders listing) listing).nodes :=
  nodes_addEdges _

theorem count_congr (h : g.nodes = g'.nodes) : g.count = g'.count := by
  simpa [nodes, count] using congrArg List.length h

theorem blockAt?_congr (h : g.nodes = g'.nodes) (a : Address) : g.blockAt? a = g'.blockAt? a := by
  have hnodes : ∀ g : FlowGraph,
      g.blockAt? a = (g.nodes.reverse.find? fun b => b.start = a).map (·.id) := by
    intro g
    rw [nodes, ← List.map_reverse, List.find?_map, Option.map_map]
    rfl
  rw [hnodes, hnodes, h]

theorem block?_congr (h : g.nodes = g'.nodes) {id : BlockId} {b : Block}
    (hb : g.block? id = some b) : ∃ b', g'.block? id = some b' ∧ b'.unlinked = b.unlinked := by
  have hnode : g.nodes[id]? = some b.unlinked := by
    rw [nodes, List.getElem?_map, show g.blocks[id]? = some b from hb]
    rfl
  rw [h, nodes, List.getElem?_map, Option.map_eq_some_iff] at hnode
  exact hnode

theorem follow_congr (h : g.nodes = g'.nodes) (b : Block) : g.follow b = g'.follow b := by
  have hlookup : g.blockAt? = g'.blockAt? := funext (blockAt?_congr h)
  rw [follow, follow, hlookup]

theorem follow_unlinked (b : Block) : g.follow b.unlinked = g.follow b := rfl

/-! ## Successors -/

theorem successors_eq_nil {id : BlockId} (h : g.count ≤ id) : g.successors id = [] := by
  rw [successors, block?, List.getElem?_eq_none h]
  rfl

theorem successors_addEdge {source : BlockId} (hsource : source < g.count) (target id : BlockId) :
    (g.addEdge source target).successors id =
      if id = source ∧ target ∉ g.successors source then g.successors source ++ [target]
      else g.successors id := by
  unfold addEdge
  by_cases hmem : target ∈ g.successors source
  · simp [hmem]
  · simp only [hmem, ↓reduceIte, not_false_eq_true, and_true]
    simp only [successors, block?, List.getElem?_modify]
    by_cases hid : id = source
    · subst hid
      rw [List.getElem?_eq_getElem hsource]
      simp only [Option.map_eq_map, Option.map_some, ↓reduceIte, Option.elim_some]
      split <;> rfl
    · cases g.blocks[id]? with
      | none => simp [hid]
      | some b =>
          simp only [Option.map_eq_map, Option.map_some, Option.elim_some, hid, Ne.symm hid,
            ↓reduceIte]
          split <;> rfl

theorem eraseDups_concat {α : Type} [DecidableEq α] (l : List α) (a : α) :
    (l ++ [a]).eraseDups = if a ∈ l then l.eraseDups else l.eraseDups ++ [a] := by
  rw [List.eraseDups_append]
  by_cases h : a ∈ l <;> simp [List.removeAll, List.eraseDups_cons, h]

theorem nodup_eraseDups {α : Type} [DecidableEq α] (l : List α) : l.eraseDups.Nodup := by
  induction l using List.reverseRecOn with
  | nil => exact List.nodup_nil
  | append_singleton l a ih =>
      rw [eraseDups_concat]
      split
      · exact ih
      · next h =>
        rw [← List.mem_eraseDups] at h
        simp only [List.nodup_append, ih, List.nodup_cons, List.not_mem_nil, not_false_eq_true,
          List.nodup_nil, List.mem_singleton, true_and]
        rintro x hx _ rfl rfl
        exact h hx

theorem length_eraseDups_le {α : Type} [DecidableEq α] (l : List α) :
    l.eraseDups.length ≤ l.length := by
  induction l using List.reverseRecOn with
  | nil => exact Nat.le_refl 0
  | append_singleton l a ih =>
      rw [eraseDups_concat]
      split <;> simp only [List.length_append, List.length_singleton] <;> omega

theorem eraseDups_of_length_le_one {α : Type} [DecidableEq α] {l : List α} (h : l.length ≤ 1) :
    l.eraseDups = l := by
  match l, h with
  | [], _ => rfl
  | [a], _ => simp [List.eraseDups_cons]

theorem eraseDups_map {α β : Type} [DecidableEq α] [DecidableEq β] {f : α → β} {l : List α}
    (hinj : ∀ x ∈ l, ∀ y ∈ l, f x = f y → x = y) : (l.map f).eraseDups = l.eraseDups.map f := by
  induction l using List.reverseRecOn with
  | nil => rfl
  | append_singleton l a ih =>
      have hmem : f a ∈ l.map f ↔ a ∈ l := by
        refine ⟨fun h => ?_, fun h => List.mem_map_of_mem h⟩
        obtain ⟨x, hx, heq⟩ := List.mem_map.1 h
        rwa [← hinj x (List.mem_append_left _ hx) a (by simp) heq]
      have ih := ih fun x hx y hy => hinj x (List.mem_append_left _ hx) y (List.mem_append_left _ hy)
      simp only [List.map_append, List.map_cons, List.map_nil, eraseDups_concat, hmem, ih]
      split <;> simp

/-- In a graph without edges, the successors of a block become the targets of its new edges. -/
theorem successors_addEdges {edges : List (BlockId × BlockId)}
    (hsources : ∀ edge ∈ edges, edge.1 < g.count) (hnone : ∀ id, g.successors id = [])
    (id : BlockId) :
    (edges.foldl (fun g edge => g.addEdge edge.1 edge.2) g).successors id =
      ((edges.filter fun edge => edge.1 = id).map (·.2)).eraseDups := by
  induction edges using List.reverseRecOn generalizing id with
  | nil => exact hnone id
  | append_singleton edges edge ih =>
      have ih := ih fun e he => hsources e (List.mem_append_left _ he)
      have hsource : edge.1 < (edges.foldl (fun g edge => g.addEdge edge.1 edge.2) g).count := by
        rw [count_congr (nodes_addEdges edges)]
        exact hsources edge (by simp)
      rw [List.foldl_append, List.foldl_cons, List.foldl_nil, successors_addEdge hsource, ih, ih,
        List.filter_append, List.map_append]
      by_cases hid : id = edge.1
      · subst hid
        simp only [List.filter_cons, decide_true, ↓reduceIte, List.filter_nil, List.map_cons,
          List.map_nil, eraseDups_concat, List.mem_eraseDups, true_and]
        split <;> simp_all
      · simp [hid, Ne.symm hid]

/-! ## Ids -/

theorem getElem?_ofSegments (leads : OrderedSet Address) (listing : List Instruction)
    (i : BlockId) :
    (ofSegments leads listing).blocks[i]? =
      (segments (fun insn => insn.address ∈ leads) listing)[i]?.map (Block.ofSegment · i) := by
  simp [ofSegments, List.getElem?_zipIdx, Option.map_map, Function.comp_def]

/-- Every block has its position as its id. -/
def Indexed (g : FlowGraph) : Prop :=
  ∀ i b, g.block? i = some b → b.id = i

theorem indexed_ofSegments (leads : OrderedSet Address) (listing : List Instruction) :
    (ofSegments leads listing).Indexed := by
  intro i b hb
  rw [block?, getElem?_ofSegments, Option.map_eq_some_iff] at hb
  obtain ⟨s, -, rfl⟩ := hb
  rfl

theorem Indexed.congr (hg : g.Indexed) (h : g.nodes = g'.nodes) : g'.Indexed := by
  intro i b hb
  obtain ⟨b', hb', heq⟩ := block?_congr h.symm hb
  rw [← hg i b' hb']
  exact (congrArg Block.id heq).symm

theorem Indexed.exists_id_eq (hg : g.Indexed) {id : BlockId} (hid : id < g.count) :
    ∃ b ∈ g.blocks, b.id = id :=
  ⟨g.blocks[id], List.getElem_mem hid, hg id _ (List.getElem?_eq_getElem hid)⟩

theorem Indexed.block?_id (hg : g.Indexed) {b : Block} (hb : b ∈ g.blocks) :
    g.block? b.id = some b := by
  obtain ⟨i, hi⟩ := List.mem_iff_getElem?.1 hb
  rw [hg i b hi]
  exact hi

theorem Indexed.successors_id (hg : g.Indexed) {b : Block} (hb : b ∈ g.blocks) :
    g.successors b.id = b.successors := by
  rw [successors, hg.block?_id hb, Option.elim_some]

theorem Indexed.predecessors_id (hg : g.Indexed) {b : Block} (hb : b ∈ g.blocks) :
    g.predecessors b.id = b.predecessors := by
  rw [predecessors, hg.block?_id hb, Option.elim_some]

theorem Indexed.id_getElem (hg : g.Indexed) {i : BlockId} (hi : i < g.blocks.length) :
    g.blocks[i].id = i :=
  hg i _ (List.getElem?_eq_getElem hi)

theorem Indexed.id_lt (hg : g.Indexed) {b : Block} (hb : b ∈ g.blocks) : b.id < g.count := by
  obtain ⟨i, hi, rfl⟩ := List.mem_iff_getElem.1 hb
  rw [hg.id_getElem hi]
  exact hi

/-- The edges that `follow` names for a block are those that leave its id. -/
theorem Indexed.targets_edges (hg : g.Indexed) {id : BlockId} {b : Block}
    (hb : g.block? id = some b) :
    (g.edges.filter fun edge => edge.1 = id).map (·.2) = g.follow b := by
  obtain ⟨hlt, hget⟩ := List.getElem?_eq_some_iff.1 hb
  have hother : ∀ blocks : List Block, (∀ x ∈ blocks, x.id ≠ id) →
      ((blocks.flatMap fun x => (g.follow x).map fun target => (x.id, target)).filter
        fun edge => edge.1 = id) = [] := by
    intro blocks h
    simp only [List.filter_eq_nil_iff, List.mem_flatMap, List.mem_map, decide_eq_true_eq]
    rintro edge ⟨x, hx, target, -, rfl⟩
    exact h x hx
  have hsplit : g.blocks = g.blocks.take id ++ b :: g.blocks.drop (id + 1) := by
    rw [← hget, List.getElem_cons_drop, List.take_append_drop]
  have hself : (((g.follow b).map fun target => (b.id, target)).filter fun edge => edge.1 = id) =
      (g.follow b).map fun target => (b.id, target) := by
    simp [List.filter_eq_self, hg id b hb]
  rw [edges, hsplit, List.flatMap_append, List.flatMap_cons, List.filter_append, List.filter_append,
    hother, hother, hself]
  · simp [Function.comp_def]
  · intro x hx
    obtain ⟨i, hi, rfl⟩ := List.mem_iff_getElem.1 hx
    rw [List.getElem_drop, hg.id_getElem]
    exact Nat.ne_of_gt (by omega)
  · intro x hx
    obtain ⟨i, hi, rfl⟩ := List.mem_iff_getElem.1 hx
    rw [List.length_take] at hi
    rw [List.getElem_take, hg.id_getElem]
    exact Nat.ne_of_lt (by omega)

theorem indexed_ofListing (listing : List Instruction) : (ofListing listing).Indexed :=
  (indexed_ofSegments _ _).congr (nodes_ofListing listing).symm

/-- A block of the graph of a listing has the successors that `follow` names. -/
theorem successors_ofListing {listing : List Instruction} {id : BlockId} {b : Block}
    (hb : (ofListing listing).block? id = some b) :
    b.successors = ((ofListing listing).follow b).eraseDups := by
  let g := ofSegments (leaders listing) listing
  have hindexed : g.Indexed := indexed_ofSegments _ _
  have hnodes : (ofListing listing).nodes = g.nodes := nodes_ofListing listing
  have hnone : ∀ i, g.successors i = [] := by
    intro i
    rw [successors, block?, getElem?_ofSegments]
    cases (segments _ listing)[i]? <;> rfl
  have hsources : ∀ edge ∈ g.edges, edge.1 < g.count := by
    intro edge hedge
    simp only [edges, List.mem_flatMap, List.mem_map] at hedge
    obtain ⟨x, hx, target, -, rfl⟩ := hedge
    exact hindexed.id_lt hx
  have hsuccessors : b.successors = g.link.successors id := by
    rw [successors, show g.link.block? id = some b from hb]
    rfl
  obtain ⟨b₀, hb₀, hunlinked⟩ := block?_congr hnodes hb
  have hfollow : g.follow b₀ = (ofListing listing).follow b := by
    rw [follow_congr hnodes, ← follow_unlinked b₀, hunlinked, follow_unlinked]
  rw [hsuccessors, link, successors_addEdges hsources hnone, hindexed.targets_edges hb₀, hfollow]

end FlowGraph

end FirmwareLift
