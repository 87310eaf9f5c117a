import Typings.Proofs.Running

/-!
# A scan goes on step by step

What a step that succeeds does to the scanned module.
-/

namespace Typings

open ExportScan

namespace ScanStep

inductive Advances (files : FileTree) (T : TableOf) (p : Path) :
    ScanStep → Store → Module → Store → Module → Prop
  | own {l : LocalStep} {s : Store} {m : Module} {f : Module → Module}
      (hf : l.change p m = .ok f) : Advances files T p (.own l) s m (s.updateModule p f) (f m)
  | visit {file key : Path} {s s' : Store} {m : Module}
      (h : (files.load file).eval s = (.ok key, s')) : Advances files T p (.visit file) s m s' m
  | merge {target : Path} {s s₁ : Store} {m : Module} {taken : ExportTable}
      (h : (T target).eval s = (.ok taken, s₁)) :
      Advances files T p (.merge target) s m (s₁.updateModule p (·.updatePending (·.merge taken)))
        (m.updatePending (·.merge taken))
  | take {target : Path} {b : Binding} {s s₁ : Store} {m mt : Module} {table : ExportTable}
      {found : Identity} (h : (T target).eval s = (.ok table, s₁))
      (hm : s₁.module? target = some mt) (hfound : mt.lookupExport table b.name = .ok found) :
      Advances files T p (.take target b) s m (s₁.updateModule p (·.addTaken b found))
        (m.addTaken b found)

variable {files : FileTree} {options : ResolverOptions} {T : TableOf} {stack : List Path}
  {p : Path} {s s' : Store}

theorem module?_of_ask (hT : T.Tame files options) (h : s.Running files options (p :: stack))
    {m : Module} (hm : s.module? p = some m) {q : Path} (hasks : files.Asks options p q)
    {r : Except Error ExportTable} (heval : (T q).eval s = (r, s')) : s'.module? p = some m := by
  have hevolves := (hT h (h.leads_of_asks hasks) heval).2
  have hpending := (h.pending_iff_mem hm).2 (List.mem_cons_self ..)
  exact hevolves.busy p m (by simp) hm (.inr hpending)

theorem Effect.advances (hT : T.Tame files options) (h : s.Running files options (p :: stack))
    {m : Module} (hm : s.module? p = some m) {i : ScanStep} (hi : i ∈ files.scanSteps options p)
    (he : Effect files T p i s (.ok ()) s') :
    ∃ m', s'.module? p = some m' ∧ Advances files T p i s m s' m' := by
  cases he with
  | changed hm' hf =>
      obtain rfl := Option.some.inj (hm.symm.trans hm')
      exact ⟨_, Store.module?_updateModule_self _ hm, .own hf⟩
  | visited hl =>
      have hpending := (h.pending_iff_mem hm).2 (List.mem_cons_self ..)
      exact ⟨m, (FileTree.loads hl).evolves.busy p m (by simp) hm (.inr hpending), .visit hl⟩
  | merged heval =>
      have hm₁ := module?_of_ask hT h hm (FileTree.asks_of_merge hi) heval
      exact ⟨_, Store.module?_updateModule_self _ hm₁, .merge heval⟩
  | taken heval hmt hfound =>
      have hm₁ := module?_of_ask hT h hm (FileTree.asks_of_take hi) heval
      exact ⟨_, Store.module?_updateModule_self _ hm₁, .take heval hmt hfound⟩

theorem Advances.effect {i : ScanStep} {m m' : Module} (h : Advances files T p i s m s' m')
    (hm : s.module? p = some m) : Effect files T p i s (.ok ()) s' := by
  cases h with
  | own hf => exact .changed hm hf
  | visit hl => exact .visited hl
  | merge heval => exact .merged heval
  | take heval hmt hfound => exact .taken heval hmt hfound

theorem Advances.ask {i : ScanStep} {m m' : Module} {q : Path} (h : Advances files T p i s m s' m')
    (hq : i.asked? = some q) :
    ∃ t s₁, (T q).eval s = (.ok t, s₁) ∧ ∀ d, s₁.NotedBelow d → s'.NotedBelow d := by
  cases h with
  | own => cases hq
  | visit => cases hq
  | merge heval =>
      obtain rfl := Option.some.inj hq
      exact ⟨_, _, heval, fun _ hd => hd⟩
  | take heval _ _ =>
      obtain rfl := Option.some.inj hq
      exact ⟨_, _, heval, fun _ hd => hd⟩

end ScanStep

end Typings
