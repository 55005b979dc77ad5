import FirmwareLift.Proofs.FlowGraph.Derived
import Mathlib.Data.List.Chain

/-!
# Cycles

Along a cycle the starts of the blocks cannot rise at every edge. The search by address order takes
every edge that does not lead upwards for a back edge, so it reports a loop on every cycle, and a
graph for which it reports none has no cycle.
-/

namespace FirmwareLift.FlowGraph

section

variable (g : FlowGraph)

/-- Where a block starts, as a number. -/
def startNumber (id : BlockId) : Nat :=
  (g.startOf? id).elim 0 UInt32.toNat

/-- Every walk along the edges that comes back to its first block takes the edge of a loop. -/
structure MeetsCycles (loops : List Loop) : Prop where
  exists_infix : ∀ first rest, (first :: rest ++ [first]).IsChain g.Leads →
    ∃ l ∈ loops, [l.tail, l.header] <:+: first :: rest ++ [first]
  acyclic : loops = [] → ∀ id, ¬ Relation.TransGen g.Leads id id

end

variable {g analysed : FlowGraph} {listing : List Instruction} {tail header id first : BlockId}
  {rest : List BlockId}

theorem Indexed.startNumber_id (hg : g.Indexed) {b : Block} (hb : b ∈ g.blocks) :
    g.startNumber b.id = b.start.toNat := by
  rw [startNumber, startOf?, hg.block?_id hb, Option.map_some, Option.elim_some]

/-- An edge that does not lead upwards makes a loop. -/
theorem Extends.exists_loop (h : g.Extends listing) (hleads : g.Leads tail header)
    (hle : g.startNumber header ≤ g.startNumber tail) :
    ∃ l ∈ (g.detectLoops .addressOrder).loops, l.tail = tail ∧ l.header = header := by
  obtain ⟨b, hb, rfl⟩ := h.indexed.exists_id_eq hleads.source_lt
  obtain ⟨c, hc, rfl⟩ := h.indexed.exists_id_eq (h.linked.target_lt hleads)
  rw [h.indexed.startNumber_id hb, h.indexed.startNumber_id hc] at hle
  have hback : g.isBackEdge .addressOrder b c.id = true := by
    simpa [isBackEdge, startOf?, h.indexed.block?_id hc, UInt32.le_iff_toNat_le] using hle
  exact ⟨_, mem_findLoops.2 ⟨b, hb, c.id, (h.indexed.leads_iff hb).1 hleads, hback, rfl⟩, rfl, rfl⟩

theorem Extends.exists_infix_of_cycle (h : g.Extends listing)
    (hcycle : (first :: rest ++ [first]).IsChain g.Leads) :
    ∃ l ∈ (g.detectLoops .addressOrder).loops,
      [l.tail, l.header] <:+: first :: rest ++ [first] := by
  by_contra hnone
  -- Without the edge of a loop the walk would lead upwards all the way, back to where it started.
  have hrises : (first :: rest ++ [first]).IsChain
      fun a b => g.startNumber a < g.startNumber b := by
    rw [List.isChain_iff_forall_rel_of_append_cons_cons] at hcycle ⊢
    intro a b front behind heq
    by_contra hle
    obtain ⟨l, hl, rfl, rfl⟩ := h.exists_loop (hcycle heq) (Nat.not_lt.1 hle)
    exact hnone ⟨l, hl, front, behind, by rw [heq, List.append_assoc]; rfl⟩
  have hnumbers := (List.isChain_map g.startNumber).2 hrises
  have hmem : g.startNumber first ∈ (rest ++ [first]).map g.startNumber :=
    List.mem_map_of_mem (List.mem_append_right rest List.mem_cons_self)
  exact Nat.lt_irrefl _ (hnumbers.rel_cons hmem)

theorem exists_cycle_of_transGen (h : Relation.TransGen g.Leads id id) :
    ∃ rest, (id :: rest ++ [id]).IsChain g.Leads := by
  obtain ⟨last, hreaches, hleads⟩ := Relation.TransGen.tail'_iff.1 h
  obtain ⟨rest, hchain, hlast⟩ := List.exists_isChain_cons_of_relationReflTransGen hreaches
  refine ⟨rest, hchain.append (.singleton id) fun a ha b hb => ?_⟩
  rw [List.getLast?_eq_some_getLast (List.cons_ne_nil _ _), hlast] at ha
  obtain rfl : last = a := Option.some.inj ha
  obtain rfl : id = b := Option.some.inj hb
  exact hleads

/-- The search by address order misses no cycle, wherever in the graph it lies. -/
theorem meetsCycles_of_edited (h : Edited listing analysed g) :
    g.MeetsCycles (g.detectLoops .addressOrder).loops where
  exists_infix _ _ hcycle := h.extends.exists_infix_of_cycle hcycle
  acyclic hnone id hpath := by
    obtain ⟨rest, hcycle⟩ := exists_cycle_of_transGen hpath
    obtain ⟨l, hl, -⟩ := h.extends.exists_infix_of_cycle hcycle
    rw [hnone] at hl
    cases hl

/-- A return, and behind it two jumps to each other, the first of them at the higher address. -/
def scattered : List Instruction :=
  [{ address := 0x0, word := 0, mnemonic := "ret", operands := [] },
    { address := 0x10, word := 0, mnemonic := "j", operands := ["0x8"] },
    { address := 0x8, word := 0, mnemonic := "j", operands := ["0x10"] }]

theorem scattered_meetsCycles :
    Edited scattered (ofListing scattered) (ofListing scattered) ∧
      (ofListing scattered).MeetsCycles ((ofListing scattered).detectLoops .addressOrder).loops ∧
      [1, 2, 1].IsChain (ofListing scattered).Leads ∧
      ((ofListing scattered).detectLoops .addressOrder).loops.map
        (fun l => (l.tail, l.header)) = [(1, 2)] := by
  have hedited : Edited scattered (ofListing scattered) (ofListing scattered) :=
    .build scattered .empty
  have hforth : (ofListing scattered).Leads 1 2 :=
    show 2 ∈ (ofListing scattered).successors 1 by decide +kernel
  have hback : (ofListing scattered).Leads 2 1 :=
    show 1 ∈ (ofListing scattered).successors 2 by decide +kernel
  exact ⟨hedited, meetsCycles_of_edited hedited, .cons_cons hforth (.cons_cons hback (.singleton 1)),
    by decide +kernel⟩

end FirmwareLift.FlowGraph
