import FirmwareLift.Proofs.Dataflow.Liveness
import FirmwareLift.Proofs.FlowGraph.Blocks
import FirmwareLift.Proofs.Routine

/-!
# Executions

What the instructions of a graph do, as far as the analyses know: an instruction reads the registers
that it uses and the memory, writes the register that it defines and the memory, and the last one of
a block chooses a successor. Two executions are alike if the registers that are live where they
start hold the same values.
-/

namespace FirmwareLift

/-- A meaning of instructions, in terms of the memory and the values that they read. -/
structure Interpretation (Value Memory : Type) where
  write : Instruction → Memory → List Value → Value
  store : Instruction → Memory → List Value → Memory
  choose : Instruction → Memory → List Value → (successors : List BlockId) → Option BlockId

structure Machine (Value Memory : Type) where
  registers : String → Value
  memory : Memory

/-- An execution that has come to the instructions `rest` of a block. -/
structure Execution (Value Memory : Type) where
  block : Block
  rest : List Instruction
  machine : Machine Value Memory

/-- An instruction that was executed, the values that it read and the memory that it left. -/
structure Event (Value Memory : Type) where
  block : BlockId
  insn : Instruction
  values : List Value
  memory : Memory

variable {Value Memory : Type}

def Machine.read (m : Machine Value Memory) (insn : Instruction) : List Value :=
  insn.used.map m.registers

def FlowGraph.enter? (g : FlowGraph) (m : Machine Value Memory) (id : BlockId) :
    Option (Execution Value Memory) :=
  (g.block? id).map fun b => ⟨b, b.instructions, m⟩

def FlowGraph.start? (g : FlowGraph) (m : Machine Value Memory) :
    Option (Execution Value Memory) :=
  g.entry.bind (g.enter? m)

namespace Interpretation

variable (I : Interpretation Value Memory) (g : FlowGraph)

def execute (insn : Instruction) (m : Machine Value Memory) : Machine Value Memory where
  registers r :=
    if insn.defined? = some r then I.write insn m.memory (m.read insn) else m.registers r
  memory := I.store insn m.memory (m.read insn)

/-- Executes one instruction; nothing follows where no successor is chosen. -/
def step? : Execution Value Memory → Option (Execution Value Memory)
  | ⟨_, [], _⟩ => none
  | ⟨b, [last], m⟩ =>
    ((I.choose last m.memory (m.read last) b.successors).filter (· ∈ b.successors)).bind
      (g.enter? (I.execute last m))
  | ⟨b, insn :: rest, m⟩ => some ⟨b, rest, I.execute insn m⟩

def event? : Execution Value Memory → Option (Event Value Memory)
  | ⟨_, [], _⟩ => none
  | ⟨b, insn :: _, m⟩ => some ⟨b.id, insn, m.read insn, I.store insn m.memory (m.read insn)⟩

/-- The first events of an execution, as many as are asked for. -/
def events : Nat → Option (Execution Value Memory) → List (Event Value Memory)
  | 0, _ => []
  | _ + 1, none => []
  | n + 1, some e => (I.event? e).toList ++ events n (I.step? g e)

end Interpretation

/-! ## Executions that are alike -/

/-- A register is needed where the instructions `rest` of a block are still to come. -/
def Needed (live : FlowSets) (b : Block) (rest : List Instruction) (r : String) : Prop :=
  r ∈ Block.exposedUses rest ∨
    r ∈ live.behindBlock b.id ∧ ∀ insn ∈ rest, insn.defined? ≠ some r

/-- Both executions have ended, or both are at one place with the same values where they matter. -/
inductive Alike (g : FlowGraph) (live : FlowSets) :
    Option (Execution Value Memory) → Option (Execution Value Memory) → Prop where
  | ended : Alike g live none none
  | running {b : Block} {rest : List Instruction} {m m' : Machine Value Memory} :
      b ∈ g.blocks → m.memory = m'.memory →
      (∀ r, Needed live b rest r → m.registers r = m'.registers r) →
        Alike g live (some ⟨b, rest, m⟩) (some ⟨b, rest, m'⟩)

variable {g : FlowGraph} {live : FlowSets} {b : Block} {insn : Instruction}
  {rest : List Instruction} {r : String} {m m' : Machine Value Memory}

theorem needed_of_mem_used (h : r ∈ insn.used) : Needed live b (insn :: rest) r :=
  .inl (Block.mem_exposedUses_cons.2 (.inl h))

theorem Needed.cons (h : Needed live b rest r) (hdef : insn.defined? ≠ some r) :
    Needed live b (insn :: rest) r := by
  rcases h with huse | ⟨hlive, hdefs⟩
  · exact .inl (Block.mem_exposedUses_cons.2 (.inr ⟨huse, hdef⟩))
  · exact .inr ⟨hlive, List.forall_mem_cons.2 ⟨hdef, hdefs⟩⟩

variable (I : Interpretation Value Memory)

theorem read_eq (h : ∀ r, Needed live b (insn :: rest) r → m.registers r = m'.registers r) :
    m.read insn = m'.read insn :=
  List.map_congr_left fun r hr => h r (needed_of_mem_used hr)

theorem registers_execute_eq (hmemory : m.memory = m'.memory)
    (h : ∀ r, Needed live b (insn :: rest) r → m.registers r = m'.registers r)
    (hr : Needed live b rest r) :
    (I.execute insn m).registers r = (I.execute insn m').registers r := by
  simp only [Interpretation.execute, read_eq h, hmemory]
  split
  · rfl
  · next hdef => exact h r (hr.cons hdef)

theorem alike_enter? {hg : g.Indexed} (hlive : (g.liveProblem hg).Solved live) {id : BlockId}
    (hmemory : m.memory = m'.memory)
    (h : ∀ r ∈ live.beforeBlock id, m.registers r = m'.registers r) :
    Alike g live (g.enter? m id) (g.enter? m' id) := by
  unfold FlowGraph.enter?
  cases hb : g.block? id with
  | none => exact .ended
  | some b =>
      have hmem : b ∈ g.blocks := List.mem_of_getElem? hb
      refine .running hmem hmemory fun r hr => h r ?_
      rw [← hg id b hb]
      exact (FlowGraph.mem_before_live hlive hmem).2 hr

theorem Alike.step? {hg : g.Indexed} (hlive : (g.liveProblem hg).Solved live)
    {e e' : Execution Value Memory} (h : Alike g live (some e) (some e')) :
    Alike g live (I.step? g e) (I.step? g e') := by
  cases h with
  | @running b rest m m' hb hmemory hneeded =>
      -- Only behind the last instruction of a block do the sets of other blocks matter.
      match rest with
      | [] => exact .ended
      | [last] =>
          simp only [Interpretation.step?, read_eq hneeded, hmemory]
          cases hchoice : ((I.choose last m'.memory (m'.read last) b.successors).filter
            (· ∈ b.successors)) with
          | none => exact .ended
          | some id =>
              have hid : id ∈ b.successors := by
                simpa using (Option.filter_eq_some_iff.1 hchoice).2
              refine alike_enter? hlive ?_ fun r hr => ?_
              · simp only [Interpretation.execute, read_eq hneeded, hmemory]
              · have hbehind := (FlowGraph.mem_behind_live hlive hb).2 ⟨id, hid, hr⟩
                exact registers_execute_eq I hmemory hneeded (.inr ⟨hbehind, by simp⟩)
      | insn :: next :: rest =>
          refine .running hb ?_ fun r hr => registers_execute_eq I hmemory hneeded hr
          simp only [Interpretation.execute, read_eq hneeded, hmemory]

theorem Alike.events_eq {hg : g.Indexed} (hlive : (g.liveProblem hg).Solved live) (n : Nat)
    {e e' : Option (Execution Value Memory)} (h : Alike g live e e') :
    I.events g n e = I.events g n e' := by
  induction n generalizing e e' with
  | zero => rfl
  | succ n ih =>
      cases h with
      | ended => rfl
      | @running b rest m m' hb hmemory hneeded =>
          have hstep := ih (Alike.step? I hlive (.running hb hmemory hneeded))
          have hevent : I.event? ⟨b, rest, m⟩ = I.event? ⟨b, rest, m'⟩ := by
            cases rest with
            | nil => rfl
            | cons insn rest => simp only [Interpretation.event?, read_eq hneeded, hmemory]
          rw [Interpretation.events, Interpretation.events, hevent, hstep]

namespace FlowGraph

theorem events_eq_of_liveAtEntry (hg : g.Indexed) (n : Nat) (hmemory : m.memory = m'.memory)
    (h : ∀ r ∈ Routine.liveAtEntry g.analyze.1, m.registers r = m'.registers r) :
    I.events g n (g.start? m) = I.events g n (g.start? m') := by
  have hlive := solved_live hg
  apply Alike.events_eq I hlive
  unfold start?
  cases hentry : g.entry with
  | none => exact .ended
  | some entry =>
      refine alike_enter? hlive hmemory fun r hr => h r ?_
      have hsome : g.analyze.1.entry = some entry := hentry
      rw [Routine.liveAtEntry, hsome]
      exact hr

end FlowGraph

theorem Routine.mem_parameters (f : Routine) :
    r ∈ f.inferSignature.parameters.map (·.name) ↔
      r ∈ argumentRegisters ∧ r ∈ liveAtEntry f.graph.analyze.1 := by
  rw [parameters_inferSignature, List.mem_filter, decide_eq_true_eq]

namespace FlowGraph

/--
The registers that are not live at the entry do not matter to an execution. So an argument register
does not matter unless it is inferred as a parameter.
-/
theorem events_eq_of_live (listing : List Instruction) (memory : Memory) (n : Nat)
    {first second : String → Value} :
    ((∀ r ∈ Routine.liveAtEntry (ofListing listing).analyze.1, first r = second r) →
      I.events (ofListing listing) n ((ofListing listing).start? ⟨first, memory⟩) =
        I.events (ofListing listing) n ((ofListing listing).start? ⟨second, memory⟩)) ∧
    ∀ f : Routine, f.graph.blocks = (ofListing listing).blocks →
      (∀ r, first r ≠ second r →
        r ∈ Routine.argumentRegisters ∧ r ∉ f.inferSignature.parameters.map (·.name)) →
      I.events f.graph n (f.graph.start? ⟨first, memory⟩) =
        I.events f.graph n (f.graph.start? ⟨second, memory⟩) := by
  constructor
  · intro h
    exact events_eq_of_liveAtEntry I (indexed_ofListing listing) n rfl h
  · intro f hblocks h
    have hg : f.graph.Indexed := by
      intro i b hb
      rw [block?, hblocks] at hb
      exact indexed_ofListing listing i b hb
    refine events_eq_of_liveAtEntry I hg n rfl fun r hr => ?_
    by_contra hne
    obtain ⟨hargument, hparameter⟩ := h r hne
    exact hparameter (f.mem_parameters.2 ⟨hargument, hr⟩)

/-- A loop that counts `a2` down and leaves `a3` alone. -/
def countdown : List Instruction :=
  [{ address := 0x0, word := 0, mnemonic := "addi", operands := ["a2", "a2", "-1"] },
    { address := 0x4, word := 0, mnemonic := "bnez", operands := ["a2", "0x0"] },
    { address := 0x8, word := 0, mnemonic := "ret", operands := [] }]

/-- Decrements what is read, adds it to the memory, and goes back while it is not zero. -/
def decrement : Interpretation Nat Nat where
  write _ _ values := values.sum - 1
  store _ memory values := memory + values.sum
  choose _ _ values successors := if values.sum = 0 then successors.getLast? else successors.head?

/-- Three in every register but `a3`. -/
def threes (a3 : Nat) (r : String) : Nat :=
  if r = "a3" then a3 else 3

def countdownRoutine : Routine where
  start := 0x0
  stop := 0xc
  name := "countdown"
  graph := ofListing countdown

theorem countdown_ignores_a3 :
    ((∀ r ∈ Routine.liveAtEntry (ofListing countdown).analyze.1, threes 3 r = threes 8 r) ∧
      decrement.events (ofListing countdown) 9 ((ofListing countdown).start? ⟨threes 3, 0⟩) =
        decrement.events (ofListing countdown) 9 ((ofListing countdown).start? ⟨threes 8, 0⟩)) ∧
    (∀ r, threes 3 r ≠ threes 8 r → r ∈ Routine.argumentRegisters ∧
      r ∉ countdownRoutine.inferSignature.parameters.map (·.name)) ∧
    decrement.events countdownRoutine.graph 9 (countdownRoutine.graph.start? ⟨threes 3, 0⟩) =
      decrement.events countdownRoutine.graph 9 (countdownRoutine.graph.start? ⟨threes 8, 0⟩) := by
  have hlive : (Routine.liveAtEntry (ofListing countdown).analyze.1).toList = ["a2"] := by
    decide +kernel
  have hparameters : countdownRoutine.inferSignature.parameters.map (·.name) = ["a2"] := by
    decide +kernel
  have heq : ∀ r ∈ Routine.liveAtEntry (ofListing countdown).analyze.1,
      threes 3 r = threes 8 r := by
    intro r hr
    rw [← OrderedSet.mem_toList, hlive, List.mem_singleton] at hr
    rw [hr]
    rfl
  have hne : ∀ r, threes 3 r ≠ threes 8 r → r ∈ Routine.argumentRegisters ∧
      r ∉ countdownRoutine.inferSignature.parameters.map (·.name) := by
    intro r hr
    obtain rfl : r = "a3" := by
      by_contra h
      simp [threes, h] at hr
    rw [hparameters]
    decide
  have h := @events_eq_of_live _ _ decrement countdown 0 9 (threes 3) (threes 8)
  exact ⟨⟨heq, h.1 heq⟩, hne, h.2 countdownRoutine rfl hne⟩

end FlowGraph

end FirmwareLift
