import FirmwareLift.Proofs.Pseudocode.Ending
import FirmwareLift.Pseudocode.Walk

/-!
# The walk as a recursion

The code of a graph as a tree, by recursion on its blocks. The walk writes the lines of the tree, with
a stack in place of the recursion.
-/

namespace FirmwareLift

/-! ## Code trees

Structured code as a tree. Nothing stands behind a construct, because its arms hold all that
follows. A tree is laid out into lines, and these open and close the constructs in order. -/

inductive Code where
  | done
  | line (text : String) (rest : Code)
  | choice (condition : String) (taken next : Code)
  | endless (body : Code)
deriving DecidableEq, Repr

/-- What a line is there for: its own text, or the bounds of a construct. -/
inductive Role where
  | plain
  | structural
deriving DecidableEq, Repr

/-- A construct that is open: an arm of a choice, or a loop. -/
inductive Construct where
  | taken
  | next
  | endless
deriving DecidableEq, Repr

namespace Code

/-- Code behind lines of text. -/
def after (texts : List String) (code : Code) : Code :=
  texts.foldr .line code

def layout (depth : Nat) : Code → List (Role × Line)
  | done => []
  | line text rest => (.plain, ⟨depth, text⟩) :: rest.layout depth
  | choice condition taken next =>
    (.structural, ⟨depth, s!"if ({condition}) \x7b"⟩) :: (taken.layout (depth + 1) ++
      (.structural, ⟨depth, "\x7d else \x7b"⟩) :: (next.layout (depth + 1) ++
        [(.structural, ⟨depth, "\x7d"⟩)]))
  | endless body =>
    (.structural, ⟨depth, "while (true) \x7b"⟩) :: (body.layout (depth + 1) ++
      [(.structural, ⟨depth, "\x7d"⟩)])

def lines (depth : Nat) (code : Code) : List Line :=
  (code.layout depth).map (·.2)

end Code

/-- Lines that follow where constructs are open, the innermost first, and close all of them. -/
inductive Nested (base : Nat) : List Construct → List (Role × Line) → Prop where
  | done : Nested base [] []
  | plain {around rest} (text : String) : Nested base around rest →
      Nested base around ((.plain, ⟨base + around.length, text⟩) :: rest)
  | choice {around rest} (condition : String) : Nested base (.taken :: around) rest →
      Nested base around
        ((.structural, ⟨base + around.length, s!"if ({condition}) \x7b"⟩) :: rest)
  | turn {around rest} : Nested base (.next :: around) rest →
      Nested base (.taken :: around)
        ((.structural, ⟨base + around.length, "\x7d else \x7b"⟩) :: rest)
  | endless {around rest} : Nested base (.endless :: around) rest →
      Nested base around ((.structural, ⟨base + around.length, "while (true) \x7b"⟩) :: rest)
  | close {around rest} (construct : Construct) : construct ≠ .taken → Nested base around rest →
      Nested base (construct :: around) ((.structural, ⟨base + around.length, "\x7d"⟩) :: rest)

namespace Code

variable (depth : Nat)

@[simp] theorem lines_done : done.lines depth = [] := rfl

@[simp] theorem lines_line (text : String) (rest : Code) :
    (line text rest).lines depth = ⟨depth, text⟩ :: rest.lines depth := rfl

@[simp] theorem lines_choice (condition : String) (taken next : Code) :
    (choice condition taken next).lines depth =
      ⟨depth, s!"if ({condition}) \x7b"⟩ :: (taken.lines (depth + 1) ++
        ⟨depth, "\x7d else \x7b"⟩ :: (next.lines (depth + 1) ++ [⟨depth, "\x7d"⟩])) := by
  simp [lines, layout]

@[simp] theorem lines_endless (body : Code) :
    (endless body).lines depth =
      ⟨depth, "while (true) \x7b"⟩ :: (body.lines (depth + 1) ++ [⟨depth, "\x7d"⟩]) := by
  simp [lines, layout]

@[simp] theorem lines_after (texts : List String) (code : Code) :
    (code.after texts).lines depth = texts.map (Line.mk depth) ++ code.lines depth := by
  induction texts with
  | nil => rfl
  | cons text texts ih => exact congrArg (Line.mk depth text :: ·) ih

variable {base : Nat}

/-- Laid out where constructs are open, a tree leaves them open for what follows. -/
theorem nested_layout_append (code : Code) {around : List Construct} {rest : List (Role × Line)}
    (h : Nested base around rest) :
    Nested base around (code.layout (base + around.length) ++ rest) := by
  induction code generalizing around rest with
  | done => exact h
  | line text tail ih => exact .plain text (ih h)
  | choice condition taken next ihTaken ihNext =>
      -- From the last line back: each arm is followed by the line that leaves it.
      have hnext := ihNext (.close .next (by decide) h)
      have htaken := ihTaken (.turn hnext)
      simpa [layout, Nat.add_assoc] using Nested.choice condition htaken
  | endless body ih =>
      have hbody := ih (.close .endless (by decide) h)
      simpa [layout, Nat.add_assoc] using Nested.endless hbody

theorem nested_layout (code : Code) (base : Nat) : Nested base [] (code.layout base) := by
  have h := code.nested_layout_append (.done : Nested base [] [])
  rwa [List.append_nil] at h

end Code

/-! ## Recursion on blocks

Behind a block stands the code of the blocks that its ending leads to, and each of them is told which
blocks were met before. -/

/-- The code behind a place, and the blocks that are met when it ends. -/
structure Outline (seen : OrderedSet BlockId) where
  code : Code
  met : OrderedSet BlockId
  seen_subset : ∀ id ∈ seen, id ∈ met

theorem unseen_le (count : Nat) {seen met : OrderedSet BlockId} (h : ∀ id ∈ seen, id ∈ met) :
    unseen count met ≤ unseen count seen := by
  apply List.countP_mono_left
  intro id _ hid
  simp only [decide_eq_true_eq] at hid ⊢
  exact fun hseen => hid (h id hseen)

def Outline.leaf (seen : OrderedSet BlockId) (texts : List String) : Outline seen :=
  ⟨.after texts .done, seen, fun _ h => h⟩

def Outline.behind {seen : OrderedSet BlockId} {id : BlockId} (texts : List String)
    (rest : Outline (seen.insert id)) : Outline seen :=
  ⟨.after texts rest.code, rest.met,
    fun x h => rest.seen_subset x (OrderedSet.mem_insert.2 (.inr h))⟩

/-- The code that an ending calls for, from that of the blocks it leads to. -/
def Ending.outline {seen : OrderedSet BlockId} (returnsValue : Bool)
    (outline : (met : OrderedSet BlockId) → (∀ id ∈ seen, id ∈ met) → BlockId → Outline met) :
    Ending → Outline seen
  | straight none => .leaf seen []
  | straight (some next) | forward next => outline seen (fun _ h => h) next
  | ret => .leaf seen [if returnsValue then "return a2;" else "return;"]
  | alternative condition taken next =>
    let first := outline seen (fun _ h => h) taken
    let second := outline first.met first.seen_subset next
    ⟨.choice condition first.code second.code, second.met,
      fun id h => second.seen_subset id (first.seen_subset id h)⟩
  | oneArm condition only =>
    let arm := outline seen (fun _ h => h) only
    ⟨.line s!"// if ({condition})" arm.code, arm.met, arm.seen_subset⟩
  | noArm condition => .leaf seen [s!"if ({condition}) return;"]
  | endless target =>
    let body := outline seen (fun _ h => h) target
    ⟨.endless body.code, body.met, body.seen_subset⟩
  | unresolved statement => .leaf seen statement.toList

namespace FlowGraph

variable (g : FlowGraph) (library : IdiomLibrary) (returnsValue : Bool)

/-- The code behind a block, where the blocks of `seen` are met before. -/
def outline (seen : OrderedSet BlockId) (id : BlockId) : Outline seen :=
  match h : g.block? id with
  | none => .leaf seen []
  | some b =>
    if hseen : id ∈ seen then .leaf seen [s!"// continues at {Text.Numeral.hex8 b.start}"]
    else
      have := unseen_insert_lt (List.getElem?_eq_some_iff.1 h).1 hseen
      let recurse (met) (hmet : ∀ x ∈ seen.insert id, x ∈ met) (next) : Outline met :=
        have := unseen_le g.blocks.length hmet
        outline met next
      .behind (library.statements b.body)
        (match b.terminator? with
        | some last => (Ending.ofSuccessors g b last).outline returnsValue recurse
        | none => .leaf (seen.insert id) [])
termination_by unseen g.blocks.length seen
decreasing_by omega

def code : Code :=
  match g.entry with
  | some entry => (g.outline library returnsValue .empty entry).code
  | none => .line "// no code" .done

section

variable {g library returnsValue} {seen : OrderedSet BlockId} {id : BlockId} {b : Block}

theorem outline_of_none (hb : g.block? id = none) :
    g.outline library returnsValue seen id = .leaf seen [] := by
  rw [outline]
  split <;> simp_all

theorem outline_of_mem (hb : g.block? id = some b) (hseen : id ∈ seen) :
    g.outline library returnsValue seen id =
      .leaf seen [s!"// continues at {Text.Numeral.hex8 b.start}"] := by
  rw [outline]
  split <;> simp_all

theorem outline_of_not_mem {last : Instruction} (hb : g.block? id = some b) (hseen : ¬ id ∈ seen)
    (hlast : b.terminator? = some last) :
    g.outline library returnsValue seen id =
      .behind (library.statements b.body) ((Ending.ofSuccessors g b last).outline returnsValue
        fun met (_ : ∀ x ∈ seen.insert id, x ∈ met) next =>
          g.outline library returnsValue met next) := by
  rw [outline]
  split <;> simp_all

end

/-- The lines of what a walk meets. -/
def linesFrom (seen : OrderedSet BlockId) (pending : List Pending) : List Line :=
  (g.walk seen pending).flatMap (Visit.lines g library returnsValue)

section

variable {g} {seen : OrderedSet BlockId} {id : BlockId} {b : Block} (depth : Nat)
  (rest : List Pending)

@[simp] theorem linesFrom_line (line : Line) :
    g.linesFrom library returnsValue seen (.line line :: rest) =
      line :: g.linesFrom library returnsValue seen rest := by
  rw [linesFrom, walk]
  rfl

theorem linesFrom_of_none (hb : g.block? id = none) :
    g.linesFrom library returnsValue seen (.block id depth :: rest) =
      g.linesFrom library returnsValue seen rest := by
  rw [linesFrom, walk]
  split <;> simp_all [linesFrom]

theorem linesFrom_of_mem (hb : g.block? id = some b) (hseen : id ∈ seen) :
    g.linesFrom library returnsValue seen (.block id depth :: rest) =
      ⟨depth, s!"// continues at {Text.Numeral.hex8 b.start}"⟩ ::
        g.linesFrom library returnsValue seen rest := by
  rw [linesFrom, walk]
  split <;> simp_all [linesFrom, Visit.lines]

theorem linesFrom_of_not_mem (hb : g.block? id = some b) (hseen : ¬ id ∈ seen) :
    g.linesFrom library returnsValue seen (.block id depth :: rest) =
      (library.statements b.body).map (Line.mk depth) ++
        (((Ending.ofBlock g b).texts returnsValue).map (Line.mk depth) ++
          g.linesFrom library returnsValue (seen.insert id)
            ((Ending.ofBlock g b).pending depth ++ rest)) := by
  rw [linesFrom, walk]
  split <;> simp_all [linesFrom, Visit.lines]

end

/-- What an ending writes at once and leaves pending are the lines of its code. -/
theorem lines_ending {seen : OrderedSet BlockId} (e : Ending) (depth : Nat) (rest : List Pending)
    {outline : (met : OrderedSet BlockId) → (∀ id ∈ seen, id ∈ met) → BlockId → Outline met}
    (houtline : ∀ met hmet id depth rest,
      g.linesFrom library returnsValue met (.block id depth :: rest) =
        (outline met hmet id).code.lines depth ++
          g.linesFrom library returnsValue (outline met hmet id).met rest) :
    (e.texts returnsValue).map (Line.mk depth) ++
        g.linesFrom library returnsValue seen (e.pending depth ++ rest) =
      (e.outline returnsValue outline).code.lines depth ++
        g.linesFrom library returnsValue (e.outline returnsValue outline).met rest := by
  have hseen := houtline seen fun _ h => h
  cases e with
  | straight next =>
      cases next with
      | none => rfl
      | some next => exact hseen next depth rest
  | alternative condition taken next =>
      -- The second arm starts with the blocks that the first one has met.
      have hnext := houtline _ (outline seen (fun _ h => h) taken).seen_subset next
      simp [Ending.texts, Ending.pending, Ending.outline, hseen, hnext]
  | oneArm condition only => exact congrArg (_ :: ·) (hseen only depth rest)
  | forward target => exact hseen target depth rest
  | endless target => simp [Ending.texts, Ending.pending, Ending.outline, hseen]
  | ret | noArm condition => rfl
  | unresolved statement => simp [Ending.texts, Ending.pending, Ending.outline, Outline.leaf]

end FlowGraph

namespace FlowGraph

variable (listing : List Instruction) (library : IdiomLibrary) (returnsValue : Bool)

/-- The lines for a pending block are those of its code; what is pending behind it comes next. -/
theorem lines_outline (seen : OrderedSet BlockId) (id : BlockId) (depth : Nat)
    (rest : List Pending) :
    (ofListing listing).linesFrom library returnsValue seen (.block id depth :: rest) =
      ((ofListing listing).outline library returnsValue seen id).code.lines depth ++
        (ofListing listing).linesFrom library returnsValue
          ((ofListing listing).outline library returnsValue seen id).met rest := by
  -- `rest` stays general, because the arms of a construct run with its closing lines behind them.
  induction seen, id using outline.induct (ofListing listing) library returnsValue
    generalizing depth rest with
  | case1 seen id hb =>
      rw [outline_of_none hb, linesFrom_of_none library returnsValue depth rest hb]
      rfl
  | case2 seen id b hb hseen =>
      rw [outline_of_mem hb hseen, linesFrom_of_mem library returnsValue depth rest hb hseen]
      rfl
  | case3 seen id b hb hseen _ ih =>
      obtain ⟨last, hlast, -⟩ := terminator?_ofListing (List.mem_of_getElem? hb)
      rw [outline_of_not_mem hb hseen hlast, linesFrom_of_not_mem library returnsValue _ _ hb hseen,
        ofBlock_eq hb hlast, lines_ending _ _ _ _ depth rest ih, Outline.behind, Code.lines_after,
        List.append_assoc]

/-- The walk writes the code of the recursion, and its constructs are nested in the lines. -/
theorem lines_eq_code (base : Nat) :
    (ofListing listing).lines library returnsValue base =
        ((ofListing listing).code library returnsValue).lines base ∧
      Nested base [] (((ofListing listing).code library returnsValue).layout base) := by
  refine ⟨?_, Code.nested_layout _ base⟩
  rw [lines, code, visits]
  cases (ofListing listing).entry with
  | none => rfl
  | some entry =>
      have h := lines_outline listing library returnsValue .empty entry base []
      rwa [linesFrom, linesFrom, walk, List.flatMap_nil, List.append_nil] at h

end FlowGraph

end FirmwareLift
