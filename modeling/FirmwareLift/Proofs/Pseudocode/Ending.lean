import FirmwareLift.Proofs.FlowGraph.Reachable
import FirmwareLift.Pseudocode.Walk

/-!
# Endings and edges

In the graph of a listing, what a block ends with is told by its last instruction and its
successors. So what the ending leaves to be written are the successors, each once and in order, and
lines that bound the arms of constructs.
-/

namespace FirmwareLift

/-- The ending that the last instruction and the successors of a block call for. -/
def Ending.ofSuccessors (g : FlowGraph) (b : Block) (last : Instruction) : Ending :=
  match last.kind with
  | .ret => .ret
  | .branch => .ofBranch last.condition b.successors
  | .jump =>
    match b.successors.head? with
    | some target =>
      if (g.startOf? target).any (· ≤ b.start) then .endless target else .forward target
    | none => .unresolved last.statement?
  | .call | .store | .plain => .straight b.successors.head?

def Pending.block? : Pending → Option BlockId
  | .block id _ => some id
  | .line _ => none

variable {listing : List Instruction} {b : Block} {id : BlockId} {last : Instruction}

theorem Block.control?_eq (hlast : b.terminator? = some last) :
    b.control? = if last.isControlFlow then some last else none := by
  rw [control?, hlast, Option.filter_some]

/-- How many successors a block may have behind an instruction of the kind. -/
def Kind.fanOut : Kind → Nat
  | ret => 0
  | branch => 2
  | jump | call | store | plain => 1

namespace FlowGraph

theorem successors_of_isJump (hb : (ofListing listing).block? id = some b)
    (hlast : b.terminator? = some last) (hkind : last.kind = .jump) :
    b.successors = (last.target?.bind (ofListing listing).blockAt?).toList := by
  rw [successors_ofListing hb, follow]
  simp only [hlast, hkind]
  exact eraseDups_of_length_le_one Option.length_toList_le

theorem ofJump_eq (hb : (ofListing listing).block? id = some b)
    (hlast : b.terminator? = some last) (hkind : last.kind = .jump) :
    Ending.ofJump (ofListing listing) b.start last =
      Ending.ofSuccessors (ofListing listing) b last := by
  have hg := indexed_ofListing listing
  simp only [Ending.ofSuccessors, hkind, successors_of_isJump hb hlast hkind, Ending.ofJump]
  cases htarget : last.target?.bind (ofListing listing).blockAt? with
  | none => rfl
  | some target =>
      obtain ⟨a, -, ha⟩ := Option.bind_eq_some_iff.1 htarget
      obtain ⟨b', hb'⟩ := hg.exists_block?_of_blockAt? ha
      simp [hb', hg target b' hb', startOf?]

theorem ofBlock_eq (hb : (ofListing listing).block? id = some b)
    (hlast : b.terminator? = some last) :
    Ending.ofBlock (ofListing listing) b = Ending.ofSuccessors (ofListing listing) b last := by
  rw [Ending.ofBlock, Block.control?_eq hlast]
  cases hkind : last.kind with
  | jump =>
      rw [← ofJump_eq hb hlast hkind]
      simp [Instruction.isControlFlow, Instruction.isReturn, Instruction.isBranch,
        Instruction.isJump, hkind]
  | branch | call | ret | store | plain =>
      simp [Ending.ofSuccessors, Instruction.isControlFlow, Instruction.isReturn,
        Instruction.isBranch, Instruction.isJump, hkind]

theorem length_successors_le (hb : (ofListing listing).block? id = some b)
    (hlast : b.terminator? = some last) : b.successors.length ≤ last.kind.fanOut := by
  have hoption : ∀ o : Option BlockId, o.toList.length ≤ 1 := fun o => Option.length_toList_le
  rw [successors_ofListing hb]
  refine Nat.le_trans (length_eraseDups_le _) ?_
  simp only [follow, hlast]
  cases last.kind with
  | ret => exact Nat.le_refl 0
  | branch =>
      rw [List.length_append]
      exact Nat.add_le_add (hoption _) (hoption _)
  | call =>
      simp only
      split
      · exact hoption _
      · exact hoption _
  | jump | store | plain => exact hoption _

end FlowGraph

namespace Ending

theorem head?_toList_of_length_le_one {α : Type} {l : List α} (h : l.length ≤ 1) :
    l.head?.toList = l := by
  match l, h with
  | [], _ => rfl
  | [a], _ => rfl

theorem blocks_pending_ofBranch (condition : String) (depth : Nat) {successors : List BlockId}
    (h : successors.length ≤ 2) :
    ((ofBranch condition successors).pending depth).filterMap Pending.block? = successors := by
  match successors, h with
  | [], _ => rfl
  | [only], _ => rfl
  | [taken, next], _ => rfl

theorem blocks_pending_ofSuccessors (g : FlowGraph) (depth : Nat)
    (h : b.successors.length ≤ last.kind.fanOut) :
    ((ofSuccessors g b last).pending depth).filterMap Pending.block? = b.successors := by
  unfold ofSuccessors
  cases hkind : last.kind with
  | ret =>
      rw [hkind] at h
      exact (List.length_eq_zero_iff.1 (Nat.le_zero.1 h)).symm
  | branch =>
      rw [hkind] at h
      exact blocks_pending_ofBranch _ depth h
  | jump =>
      rw [hkind] at h
      have htoList := head?_toList_of_length_le_one h
      cases hhead : b.successors.head? with
      | none =>
          rw [hhead] at htoList
          exact htoList
      | some target =>
          rw [hhead] at htoList
          simp only
          split <;> exact htoList
  | call | store | plain =>
      rw [hkind] at h
      simpa [pending, List.filterMap_map, Function.comp_def, Pending.block?] using
        head?_toList_of_length_le_one h

end Ending

/-- What is left to be written behind a block leads to its successors, each once and in order. -/
theorem FlowGraph.blocks_pending_ofBlock (hb : (ofListing listing).block? id = some b)
    (depth : Nat) :
    ((Ending.ofBlock (ofListing listing) b).pending depth).filterMap Pending.block? =
      b.successors := by
  obtain ⟨last, hlast, -⟩ := terminator?_ofListing (List.mem_of_getElem? hb)
  rw [ofBlock_eq hb hlast]
  exact Ending.blocks_pending_ofSuccessors _ depth (length_successors_le hb hlast)

/-! ## Lines that are left to be written -/

/-- The line turns to the other arm of a construct, or closes the construct. -/
def Line.IsBound (line : Line) : Prop :=
  line.text = "\x7d else \x7b" ∨ line.text = "\x7d"

theorem Ending.isBound_of_mem_pending {e : Ending} {depth : Nat} {line : Line}
    (h : .line line ∈ e.pending depth) : line.IsBound := by
  cases e with
  | straight next => cases next <;> simp [pending] at h
  | alternative condition taken next =>
      simp only [pending, List.mem_cons, reduceCtorEq, Pending.line.injEq, List.not_mem_nil,
        or_false, false_or] at h
      rcases h with rfl | rfl
      · exact .inl rfl
      · exact .inr rfl
  | endless target =>
      simp only [pending, List.mem_cons, reduceCtorEq, Pending.line.injEq, List.not_mem_nil,
        or_false, false_or] at h
      subst h
      exact .inr rfl
  | ret | oneArm | noArm | forward | unresolved => simp [pending] at h

namespace FlowGraph

variable {g : FlowGraph} {line : Line}

theorem isBound_of_mem_walk {seen : OrderedSet BlockId} {pending : List Pending}
    (hpending : ∀ l, .line l ∈ pending → l.IsBound) (h : .line line ∈ g.walk seen pending) :
    line.IsBound := by
  fun_induction FlowGraph.walk g seen pending with
  | case1 => exact absurd h List.not_mem_nil
  | case2 seen l rest ih =>
      rcases List.mem_cons.1 h with heq | h
      · cases heq
        exact hpending line List.mem_cons_self
      · exact ih (fun l hl => hpending l (List.mem_cons_of_mem _ hl)) h
  | case3 seen id depth rest hb ih =>
      exact ih (fun l hl => hpending l (List.mem_cons_of_mem _ hl)) h
  | case4 seen id depth rest b hb hseen ih =>
      rcases List.mem_cons.1 h with heq | h
      · cases heq
      · exact ih (fun l hl => hpending l (List.mem_cons_of_mem _ hl)) h
  | case5 seen id depth rest b hb hseen _ _ ih =>
      rcases List.mem_cons.1 h with heq | h
      · cases heq
      · refine ih (fun l hl => ?_) h
        rcases List.mem_append.1 hl with hl | hl
        · exact Ending.isBound_of_mem_pending hl
        · exact hpending l (List.mem_cons_of_mem _ hl)

theorem isBound_of_mem_visits {base : Nat} (h : .line line ∈ g.visits base) : line.IsBound := by
  refine isBound_of_mem_walk (fun l hl => ?_) h
  obtain ⟨entry, -, heq⟩ := List.mem_map.1 hl
  cases heq

end FlowGraph

end FirmwareLift
