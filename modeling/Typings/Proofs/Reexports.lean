import Mathlib.Logic.Relation
import Typings.Proofs.ScanStep

/-!
# The graph of re-exports

Which steps the export scan of a file performs, and which files it may ask for their tables.  Both
depend on the file tree alone.
-/

namespace Typings.FileTree

variable (files : FileTree) (options : ResolverOptions)

def exportStatements (p : Path) : List Statement :=
  match files.read p with
  | .ok text => (Statement.ofSource text options.stripComments).filter (!·.isImport)
  | .error _ => []

def scanSteps (p : Path) : List ScanStep :=
  (files.exportStatements options p).flatMap (·.scanSteps files options p)

/-- The file at `p` takes over all exports of the file at `q`. -/
def Merges (p q : Path) : Prop := .merge q ∈ files.scanSteps options p

def Takes (p q : Path) (b : Binding) : Prop := .take q b ∈ files.scanSteps options p

/-- The scan of the file at `p` may ask for the table of the file at `q`. -/
def Asks (p q : Path) : Prop := files.Merges options p q ∨ ∃ b, files.Takes options p q b

/-- The scan of the file at `p`, with the scans that it causes, may ask the file at `q`. -/
def Leads : Path → Path → Prop := Relation.ReflTransGen (files.Asks options)

/-- The file at `p` leads back to itself. -/
def OnCircle (p : Path) : Prop := ∃ q, files.Asks options p q ∧ files.Leads options q p

/-- On the way from `p` to `q` there is a file that leads back to itself. -/
def LeadsByCircle (p q : Path) : Prop :=
  ∃ r, files.Leads options p r ∧ files.OnCircle options r ∧ files.Leads options r q

/-- No file within reach of the file at `p` leads back to itself. -/
def NoCircles (p : Path) : Prop := ∀ q, files.Leads options p q → ¬ files.OnCircle options q

variable {files options}

theorem Leads.refl (p : Path) : files.Leads options p p := Relation.ReflTransGen.refl

theorem Leads.trans {p q r : Path} (h₁ : files.Leads options p q) (h₂ : files.Leads options q r) :
    files.Leads options p r :=
  Relation.ReflTransGen.trans h₁ h₂

theorem Leads.ask {p q r : Path} (h₁ : files.Leads options p q) (h₂ : files.Asks options q r) :
    files.Leads options p r :=
  Relation.ReflTransGen.tail h₁ h₂

theorem Asks.leads {p q : Path} (h : files.Asks options p q) : files.Leads options p q :=
  Relation.ReflTransGen.single h

theorem Leads.of_asks {p q r : Path} (h₁ : files.Asks options p q) (h₂ : files.Leads options q r) :
    files.Leads options p r :=
  Relation.ReflTransGen.head h₁ h₂

theorem OnCircle.of_asks {p q : Path} (hasks : files.Asks options p q)
    (hback : files.Leads options q p) : files.OnCircle options q := by
  rcases Relation.ReflTransGen.cases_head hback with rfl | ⟨r, hr, hrest⟩
  · exact ⟨q, hasks, .refl q⟩
  · exact ⟨r, hr, Leads.ask hrest hasks⟩

theorem asks_of_merge {p q : Path} (h : .merge q ∈ files.scanSteps options p) :
    files.Asks options p q := .inl h

theorem asks_of_take {p q : Path} {b : Binding} (h : .take q b ∈ files.scanSteps options p) :
    files.Asks options p q := .inr ⟨b, h⟩

theorem asks_of_asked? {p q : Path} {i : ScanStep} (hi : i ∈ files.scanSteps options p)
    (hq : i.asked? = some q) : files.Asks options p q := by
  cases i with
  | own l => cases hq
  | visit file => cases hq
  | merge target =>
      obtain rfl := Option.some.inj hq
      exact asks_of_merge hi
  | take target b =>
      obtain rfl := Option.some.inj hq
      exact asks_of_take hi

/-! ## Files are loaded before they are asked -/

def Guarded (files : FileTree) (steps : List ScanStep) : Prop :=
  ∀ before i after q, steps = before ++ i :: after → i.asked? = some q →
    ∃ file, .visit file ∈ before ∧ files.key file = .ok q

theorem guarded_of_none {steps : List ScanStep} (h : ∀ i ∈ steps, i.asked? = none) :
    files.Guarded steps := by
  rintro before i after q rfl hq
  rw [h i (by simp)] at hq
  cases hq

theorem guarded_append {steps steps' : List ScanStep} (h : files.Guarded steps)
    (h' : files.Guarded steps') : files.Guarded (steps ++ steps') := by
  intro before i after q heq hq
  rcases List.append_eq_append_iff.1 heq with ⟨before', rfl, heq'⟩ | ⟨after', heq', hafter⟩
  · obtain ⟨file, hfile, hkey⟩ := h' before' i after q heq' hq
    exact ⟨file, List.mem_append_right _ hfile, hkey⟩
  · cases after' with
    | nil =>
        rw [List.nil_append] at hafter
        obtain ⟨file, hfile, -⟩ := h' [] i after q hafter.symm hq
        cases hfile
    | cons j after' =>
        obtain ⟨rfl, rfl⟩ := List.cons.inj hafter
        exact h before i after' q heq' hq

theorem guarded_flatMap {α : Type} (as : List α) {f : α → List ScanStep}
    (h : ∀ a, files.Guarded (f a)) : files.Guarded (as.flatMap f) := by
  induction as with
  | nil => exact guarded_of_none (by simp)
  | cons a as ih => exact guarded_append (h a) ih

theorem guarded_visiting {file : Path} {steps : Path → List ScanStep}
    (h : ∀ t, ∀ i ∈ steps t, i.asked? = some t) : files.Guarded (ScanStep.visiting files file steps) := by
  intro before i after q heq hq
  rw [ScanStep.visiting] at heq
  cases before with
  | nil =>
      rw [List.nil_append] at heq
      rw [← (List.cons.inj heq).1] at hq
      cases hq
  | cons j before =>
      rw [List.cons_append] at heq
      obtain ⟨rfl, hrest⟩ := List.cons.inj heq
      split at hrest
      · next t hkey =>
          have hi := h t i (by rw [hrest]; simp)
          obtain rfl := Option.some.inj (hi.symm.trans hq)
          exact ⟨file, List.mem_cons_self .., hkey⟩
      · simp at hrest

theorem guarded_reexport (p : Path) (r : Reexport) :
    files.Guarded (r.scanSteps files options p) := by
  unfold Reexport.scanSteps
  split
  · refine guarded_visiting fun t i hi => ?_
    rw [List.mem_singleton.1 hi]
    rfl
  · exact guarded_of_none (by simp)
  · refine guarded_visiting fun t i hi => ?_
    obtain ⟨b, -, rfl⟩ := List.mem_map.1 hi
    rfl

theorem guarded_statement (p : Path) (s : Statement) :
    files.Guarded (s.scanSteps files options p) := by
  unfold Statement.scanSteps Meaning.scanSteps
  split
  · exact guarded_of_none (by simp [ScanStep.asked?])
  · split
    · exact guarded_of_none (by simp [ScanStep.asked?])
    · split
      · exact guarded_reexport p _
      · exact guarded_of_none (by simp [ScanStep.asked?])
      · exact guarded_of_none (by simp [ScanStep.asked?])
      · exact guarded_of_none (by simp)
      · exact guarded_of_none (by simp [ScanStep.asked?])
      · exact guarded_of_none (by simp)

theorem guarded_scanSteps (files : FileTree) (options : ResolverOptions) (p : Path) :
    files.Guarded (files.scanSteps options p) :=
  guarded_flatMap _ (guarded_statement p)

theorem mem_scanSteps_of_eq {p : Path} {i : ScanStep} {before after : List ScanStep}
    (h : files.scanSteps options p = before ++ i :: after) : i ∈ files.scanSteps options p := by
  rw [h]
  simp

theorem Asks.exists_asked? {p q : Path} (h : files.Asks options p q) :
    ∃ i ∈ files.scanSteps options p, i.asked? = some q := by
  rcases h with h | ⟨b, h⟩
  · exact ⟨_, h, rfl⟩
  · exact ⟨_, h, rfl⟩

theorem Asks.isKey {p q : Path} (h : files.Asks options p q) : files.IsKey q := by
  obtain ⟨i, hi, hq⟩ := h.exists_asked?
  obtain ⟨before, after, heq⟩ := List.append_of_mem hi
  obtain ⟨file, -, hkey⟩ := files.guarded_scanSteps options p before i after q heq hq
  exact ⟨file, hkey⟩

theorem Leads.mem_of_closed {ps : List Path} {p q : Path} (hp : p ∈ ps)
    (hclosed : ∀ p ∈ ps, ∀ i ∈ files.scanSteps options p, ∀ q, i.asked? = some q → q ∈ ps)
    (h : files.Leads options p q) : q ∈ ps := by
  induction h with
  | refl => exact hp
  | tail _ hasks ih =>
      obtain ⟨i, hi, hq⟩ := Asks.exists_asked? hasks
      exact hclosed _ ih i hi _ hq

theorem Leads.isKey {p q : Path} (hp : files.IsKey p) (h : files.Leads options p q) :
    files.IsKey q := by
  induction h with
  | refl => exact hp
  | tail _ hasks _ => exact Asks.isKey hasks

end Typings.FileTree
