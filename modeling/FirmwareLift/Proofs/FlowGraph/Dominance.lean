import FirmwareLift.Proofs.FlowGraph.Reachable

/-!
# Dominance

A block dominates the blocks that paths from the entry reach through it only.
-/

namespace FirmwareLift.FlowGraph

/-- The blocks along a path from `source`, and the block at which it ends. -/
inductive Path (g : FlowGraph) (source : BlockId) : List BlockId → BlockId → Prop where
  | start : Path g source [source] source
  | step {path : List BlockId} {a b : BlockId} :
      Path g source path a → g.Leads a b → Path g source (path ++ [b]) b

/-- Every path from the entry to `b` goes through `a`. What cannot be reached has only itself. -/
structure Dominates (g : FlowGraph) (a b : BlockId) : Prop where
  on_path : b ∈ g.reachable → ∀ entry path, g.entry = some entry → g.Path entry path b → a ∈ path
  unreachable : b ∉ g.reachable → a = b

variable {g : FlowGraph} {source a b : BlockId} {path : List BlockId}

theorem Path.reaches (h : g.Path source path b) : g.Reaches source b := by
  induction h with
  | start => exact .refl
  | step _ hleads ih => exact ih.tail hleads

theorem Path.reaches_of_mem (h : g.Path source path b) (ha : a ∈ path) : g.Reaches source a := by
  induction h with
  | start => exact List.mem_singleton.1 ha ▸ .refl
  | step hpath hleads ih =>
      rcases List.mem_append.1 ha with ha | ha
      · exact ih ha
      · exact List.mem_singleton.1 ha ▸ hpath.reaches.tail hleads

theorem Path.mem (h : g.Path source path b) : b ∈ path := by
  cases h with
  | start => exact List.mem_singleton_self _
  | step => exact List.mem_append_right _ (List.mem_singleton_self _)

theorem Path.cons (hleads : g.Leads source a) (h : g.Path a path b) :
    g.Path source (source :: path) b := by
  induction h with
  | start => exact .step .start hleads
  | step _ hlast ih => exact ih.step hlast

/-- A path ends where it starts or goes on with an edge. -/
theorem Path.cases_head (h : g.Path source path b) :
    path = [source] ∧ b = source ∨
      ∃ a rest, g.Leads source a ∧ g.Path a rest b ∧ path = source :: rest := by
  induction h with
  | start => exact .inl ⟨rfl, rfl⟩
  | @step path x y _ hleads ih =>
      rcases ih with ⟨rfl, rfl⟩ | ⟨a, rest, hfirst, hrest, rfl⟩
      · exact .inr ⟨y, [y], hleads, .start, rfl⟩
      · exact .inr ⟨a, rest ++ [y], hfirst, hrest.step hleads, rfl⟩

theorem Reaches.exists_path (h : g.Reaches source b) : ∃ path, g.Path source path b := by
  induction h with
  | refl => exact ⟨_, .start⟩
  | tail _ hleads ih =>
      obtain ⟨path, hpath⟩ := ih
      exact ⟨_, hpath.step hleads⟩

theorem Path.congr {g' : FlowGraph} (h : g.Path source path b)
    (hsuccessors : g.successors = g'.successors) : g'.Path source path b := by
  induction h with
  | start => exact .start
  | step _ hleads ih =>
      rw [Leads, hsuccessors] at hleads
      exact ih.step hleads

/-- Dominance depends on the entry and the edges only. -/
theorem Dominates.congr {g' : FlowGraph} (h : g.Dominates a b)
    (hsuccessors : g.successors = g'.successors) (hentry : g.entry = g'.entry) :
    g'.Dominates a b := by
  have hleads : g.Leads = g'.Leads := by
    funext x y
    rw [Leads, Leads, hsuccessors]
  have hreachable : g.reachable = g'.reachable := by
    rw [reachable, reachable, Reaches, Reaches, hleads, hentry]
  refine ⟨fun hb entry path he hp => ?_, fun hb => h.unreachable (hreachable ▸ hb)⟩
  exact h.on_path (hreachable ▸ hb) entry path (hentry.trans he) (hp.congr hsuccessors.symm)

section

variable {entry : BlockId} (hentry : g.entry = some entry)

include hentry

theorem mem_reachable : b ∈ g.reachable ↔ g.Reaches entry b := by
  simp [reachable, hentry]

theorem dominates_iff_of_reaches (hb : g.Reaches entry b) :
    g.Dominates a b ↔ ∀ path, g.Path entry path b → a ∈ path := by
  have hmem := (mem_reachable hentry).2 hb
  constructor
  · exact fun h path hpath => h.on_path hmem entry path hentry hpath
  · intro h
    refine ⟨fun _ start path hstart hpath => ?_, fun hnot => absurd hmem hnot⟩
    obtain rfl : entry = start := Option.some.inj (hentry.symm.trans hstart)
    exact h path hpath

theorem dominates_iff_of_not_reaches (hb : ¬ g.Reaches entry b) : g.Dominates a b ↔ a = b := by
  have hmem : b ∉ g.reachable := fun h => hb ((mem_reachable hentry).1 h)
  exact ⟨fun h => h.unreachable hmem, fun h => ⟨fun hb' => absurd hb' hmem, fun _ => h⟩⟩

/-- What dominates a block dominates the blocks in front of it, unless it is the block itself. -/
theorem Dominates.of_leads {p : BlockId} (h : g.Dominates a b) (hp : g.Reaches entry p)
    (hleads : g.Leads p b) (hne : a ≠ b) : g.Dominates a p := by
  rw [dominates_iff_of_reaches hentry hp]
  rw [dominates_iff_of_reaches hentry (hp.tail hleads)] at h
  intro path hpath
  rcases List.mem_append.1 (h _ (hpath.step hleads)) with ha | ha
  · exact ha
  · exact absurd (List.mem_singleton.1 ha) hne

theorem dominates_entry (hb : g.Reaches entry b) : g.Dominates entry b := by
  rw [dominates_iff_of_reaches hentry hb]
  intro path hpath
  rcases hpath.cases_head with ⟨rfl, -⟩ | ⟨a, rest, -, -, rfl⟩
  · exact List.mem_singleton_self _
  · exact List.mem_cons_self

theorem Dominates.eq_entry (h : g.Dominates a entry) : a = entry :=
  List.mem_singleton.1 ((dominates_iff_of_reaches hentry .refl).1 h _ .start)

/-- A dominator of a block that can be reached can be reached itself. -/
theorem Dominates.reaches (h : g.Dominates a b) (hb : g.Reaches entry b) : g.Reaches entry a := by
  obtain ⟨path, hpath⟩ := hb.exists_path
  exact hpath.reaches_of_mem ((dominates_iff_of_reaches hentry hb).1 h path hpath)

end

end FirmwareLift.FlowGraph
