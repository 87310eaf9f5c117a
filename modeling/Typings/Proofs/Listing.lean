import Typings.Proofs.Resolvable
import Typings.Run

/-!
# Listings of all exports

A run that asks for all types looks every exported name up again, one after the other, while it
works out their types.  The table of the root file is kept, so each name means what the table says.
-/

namespace Typings

variable {files : FileTree} {options : ResolverOptions}

/-! ## Tables -/

/-- The types that a table exports, the default export last. -/
def ExportTable.identities (t : ExportTable) : List Identity :=
  t.names.values ++ t.defaultExport.toList

theorem Run.map_get?_exportNames {t : ExportTable} (hnodup : t.names.keys.Nodup)
    (hdefault : t.names.get? "default" = none) :
    (exportNames t).map t.get? = t.identities.map some := by
  have hnames : t.names.keys.map t.get? = t.names.values.map some := by
    rw [← OrderedMap.map_get?_keys hnodup]
    refine List.map_congr_left fun name hname => ?_
    have hne : name ≠ "default" := by
      rintro rfl
      rw [← OrderedMap.isSome_get?_iff, hdefault] at hname
      cases hname
    rw [ExportTable.get?, if_neg hne]
  rw [exportNames, ExportTable.identities, List.map_append, List.map_append, hnames]
  cases hd : t.defaultExport <;> simp [ExportTable.get?, hd]

/-! ## Names that are looked up again -/

def Store.KeepsTable (files : FileTree) (options : ResolverOptions) (u : Path) (t : ExportTable)
    (s : Store) : Prop :=
  s.AtRest files options ∧ ∃ m, s.module? u = some m ∧ m.exports = some t

theorem Store.KeepsTable.resolve {s s' : Store} {u : Path} {t : ExportTable}
    (h : s.KeepsTable files options u t) (hproper : files.Proper) {root : Path}
    (hkey : files.key root = .ok u) {name : String} {r : Resolved}
    (heval : (files.resolve root name).eval s = (.ok r, s')) :
    s'.KeepsTable files options u t ∧ ∀ a, t.get? name = some a → r.identity = a := by
  have hclosed : Store.Closed files options (Store.KeepsTable files options u t) := closed_kept u t
  constructor
  · have hkept := ((hclosed.requests hproper).queriesAlike hproper fun _ _ _ _ => rfl).resolve
      root name s ⟨h.1, h⟩
    rw [heval] at hkept
    exact hkept.2.2
  · intro a ha
    obtain ⟨u', s₁, hload, heval⟩ := Query.eval_bind_eq_ok heval
    obtain rfl := Except.ok.inj (hkey.symm.trans (FileTree.key_of_load hload))
    have hkept₁ := hclosed.load s root h
    rw [hload] at hkept₁
    obtain ⟨-, m, hm, ht⟩ := hkept₁
    have hfound := @FileTree.eval_exportNamed_of_kept files _ _ _ _ hm ht name
    rw [m.lookupExport_of_get? ha] at hfound
    rw [Query.eval_bind_ok hfound] at heval
    obtain ⟨owner, s₂, -, heval⟩ := Query.eval_bind_eq_ok heval
    obtain ⟨d, s₃, -, heval⟩ := Query.eval_bind_eq_ok heval
    obtain ⟨e, s₄, -, heval⟩ := Query.eval_bind_eq_ok heval
    rw [Query.eval_pure, Prod.mk.injEq, Except.ok.injEq] at heval
    rw [← heval.1]

/-- Whatever the types of earlier names have led to, each name means what the table says. -/
theorem Store.KeepsTable.mapM_resolve {s s' : Store} {u : Path} {t : ExportTable}
    (h : s.KeepsTable files options u t) (hproper : files.Proper) {root : Path}
    (hkey : files.key root = .ok u) {names : List String} {entries : List Resolved}
    (hnames : ∀ name ∈ names, (t.get? name).isSome)
    (heval : (names.mapM (files.resolve root)).eval s = (.ok entries, s')) :
    entries.map (some ∘ Resolved.identity) = names.map t.get? := by
  induction names generalizing s entries with
  | nil =>
      rw [List.mapM_nil, Query.eval_pure, Prod.mk.injEq, Except.ok.injEq] at heval
      rw [← heval.1]
      rfl
  | cons name names ih =>
      rw [List.forall_mem_cons] at hnames
      rw [List.mapM_cons] at heval
      obtain ⟨r, s₁, hresolve, heval⟩ := Query.eval_bind_eq_ok heval
      obtain ⟨rest, s₂, hrest, heval⟩ := Query.eval_bind_eq_ok heval
      rw [Query.eval_pure, Prod.mk.injEq, Except.ok.injEq] at heval
      obtain ⟨rfl, rfl⟩ := heval
      obtain ⟨hs₁, hidentity⟩ := h.resolve hproper hkey hresolve
      obtain ⟨a, ha⟩ := Option.isSome_iff_exists.1 hnames.1
      rw [List.map_cons, List.map_cons, ih hs₁ hnames.2 hrest, Function.comp, hidentity a ha, ha]

theorem Store.KeepsTable.identities {s s' : Store} {u : Path} {t : ExportTable}
    (h : s.KeepsTable files options u t) (hproper : files.Proper) {root : Path}
    (hkey : files.key root = .ok u) (hdefault : t.names.get? "default" = none)
    {entries : List Resolved}
    (heval : ((Run.exportNames t).mapM (files.resolve root)).eval s = (.ok entries, s')) :
    entries.map Resolved.identity = t.identities := by
  obtain ⟨hs, m, hm, ht⟩ := h
  have hnodup := (((scanInvariant_sound hproper).reached hs u m hm).kept t ht).nodup
  have hnames := Run.map_get?_exportNames hnodup hdefault
  have hlisted : ∀ name ∈ Run.exportNames t, (t.get? name).isSome := by
    intro name hname
    have hmem : t.get? name ∈ t.identities.map some := hnames ▸ List.mem_map_of_mem hname
    obtain ⟨a, -, ha⟩ := List.mem_map.1 hmem
    rw [← ha]
    rfl
  have hentries := mapM_resolve ⟨hs, m, hm, ht⟩ hproper hkey hlisted heval
  rw [hnames, ← List.map_map] at hentries
  exact List.map_injective_iff.2 (Option.some_injective _) hentries

/-! ## Sessions -/

namespace Run

namespace Session

variable {α β : Type}

def eval (x : Session α) (s : Store) : Except RunFailure α × Store := (ExceptT.run x).run s

theorem eval_bind_eq_ok {x : Session α} {f : α → Session β} {s s' : Store} {b : β}
    (h : (x >>= f).eval s = (.ok b, s')) :
    ∃ a s₁, x.eval s = (.ok a, s₁) ∧ (f a).eval s₁ = (.ok b, s') := by
  have hbind : (x >>= f).eval s = match x.eval s with
      | (.ok a, s₁) => (f a).eval s₁
      | (.error e, s₁) => (.error e, s₁) := by
    simp only [eval, ExceptT.run_bind, StateT.run_bind]
    rcases (ExceptT.run x).run s with ⟨_ | _, _⟩ <;> rfl
  rw [hbind] at h
  rcases hx : x.eval s with ⟨e | a, s₁⟩
  · simp [hx] at h
  · rw [hx] at h
    exact ⟨a, s₁, rfl, h⟩

theorem eval_pure (a : α) (s : Store) : (pure a : Session α).eval s = (.ok a, s) := rfl

theorem eval_during (task : Task) (q : Query α) (s : Store) :
    (during task q).eval s = ((q.eval s).1.mapError (RunFailure.during task), (q.eval s).2) := by
  unfold Query.eval
  rfl

theorem eval_during_eq_ok {task : Task} {q : Query α} {s s' : Store} {a : α}
    (h : (during task q).eval s = (.ok a, s')) : q.eval s = (.ok a, s') := by
  rw [eval_during] at h
  rcases hq : q.eval s with ⟨e | b, s₁⟩
  · simp [hq, Except.mapError] at h
  · simpa [hq, Except.mapError] using h

theorem eval_mapM_during_eq_ok {task : β → Task} {f : β → Query α} {bs : List β} {s s' : Store}
    {as : List α} (h : (bs.mapM fun b => during (task b) (f b)).eval s = (.ok as, s')) :
    (bs.mapM f).eval s = (.ok as, s') := by
  induction bs generalizing s as with
  | nil =>
      rw [List.mapM_nil, eval_pure, Prod.mk.injEq, Except.ok.injEq] at h
      rw [List.mapM_nil, Query.eval_pure, h.1, h.2]
  | cons b bs ih =>
      rw [List.mapM_cons] at h
      obtain ⟨a, s₁, hb, h⟩ := eval_bind_eq_ok h
      obtain ⟨rest, s₂, hbs, h⟩ := eval_bind_eq_ok h
      rw [eval_pure, Prod.mk.injEq, Except.ok.injEq] at h
      obtain ⟨rfl, rfl⟩ := h
      rw [List.mapM_cons, Query.eval_bind_ok (eval_during_eq_ok hb), Query.eval_bind_ok (ih hbs),
        Query.eval_pure]

end Session

variable {args : Arguments} {root : Path} {s s' : Store} {a : Answer}

theorem answer_all (hargs : args.all = true) (h : (answer files args root).eval s = (.ok a, s')) :
    ∃ u s₁ t s₂ entries, (files.load root).eval s = (.ok u, s₁) ∧
      (files.exports u).eval s₁ = (.ok t, s₂) ∧
      ((exportNames t).mapM (files.resolve root)).eval s₂ = (.ok entries, s') ∧
      a = .types entries := by
  obtain ⟨u, s₁, hload, h⟩ := Session.eval_bind_eq_ok h
  rw [if_pos hargs] at h
  obtain ⟨t, s₂, hexports, h⟩ := Session.eval_bind_eq_ok h
  obtain ⟨entries, s₃, hentries, h⟩ := Session.eval_bind_eq_ok h
  rw [Session.eval_pure, Prod.mk.injEq, Except.ok.injEq] at h
  obtain ⟨rfl, rfl⟩ := h
  exact ⟨u, s₁, t, s₂, entries, Session.eval_during_eq_ok hload, Session.eval_during_eq_ok hexports,
    Session.eval_mapM_during_eq_ok hentries, rfl⟩

theorem answer_exports (hall : args.all = false) (hnames : args.names = [])
    (h : (answer files args root).eval s = (.ok a, s')) :
    ∃ u s₁ t, (files.load root).eval s = (.ok u, s₁) ∧
      (files.exports u).eval s₁ = (.ok t, s') ∧ a = .exports t := by
  obtain ⟨u, s₁, hload, h⟩ := Session.eval_bind_eq_ok h
  rw [if_neg (by simp [hall]), if_pos (by simp [hnames])] at h
  obtain ⟨t, s₂, hexports, h⟩ := Session.eval_bind_eq_ok h
  rw [Session.eval_pure, Prod.mk.injEq, Except.ok.injEq] at h
  obtain ⟨rfl, rfl⟩ := h
  exact ⟨u, s₁, t, Session.eval_during_eq_ok hload, Session.eval_during_eq_ok hexports, rfl⟩

end Run

theorem run_eq_ok {args : Arguments} {cwd : Path} {o : Outcome}
    (h : run files args cwd = .ok o) : ∃ settings a s,
      Settings.resolve files args cwd = .ok settings ∧
      (Run.answer files args (Settings.root args cwd)).eval (.ofOptions settings.resolver) =
        (.ok a, s) ∧ o = Run.outcome settings a s := by
  unfold run at h
  cases hsettings : Settings.resolve files args cwd with
  | error fault => simp [hsettings] at h
  | ok settings =>
      rw [hsettings] at h
      dsimp only at h
      split at h
      · cases h
      · next a s hanswer => exact ⟨settings, a, s, rfl, hanswer, (Except.ok.inj h).symm⟩

/--
When both listings of a file succeed, the one of all types goes through the types in the order in
which the table of exports names them, the default export last.  A default export that a name of the
table hides is left out of it.
-/
theorem listings_agree (hproper : files.Proper) {args : Arguments} {cwd : Path} {o o' : Outcome}
    (hall : run files { args with all := true } cwd = .ok o)
    (hnone : run files { args with all := false, names := [] } cwd = .ok o') :
    ∃ settings entries table s s', Settings.resolve files args cwd = .ok settings ∧
      (Run.answer files { args with all := true } (Settings.root args cwd)).eval
        (.ofOptions settings.resolver) = (.ok (.types entries), s) ∧
      (Run.answer files { args with all := false, names := [] } (Settings.root args cwd)).eval
        (.ofOptions settings.resolver) = (.ok (.exports table), s') ∧
      o = Run.outcome settings (.types entries) s ∧
      o' = Run.outcome settings (.exports table) s' ∧
      (table.names.get? "default" = none →
        entries.map Resolved.identity = table.names.values ++ table.defaultExport.toList) := by
  obtain ⟨settings, a, s, hsettings, hanswer, rfl⟩ := run_eq_ok hall
  obtain ⟨settings', a', s', hsettings', hanswer', rfl⟩ := run_eq_ok hnone
  obtain rfl : settings = settings' := Except.ok.inj (hsettings.symm.trans hsettings')
  obtain ⟨u, s₁, table, s₂, entries, hload, hexports, hentries, rfl⟩ := Run.answer_all rfl hanswer
  obtain ⟨u', s₁', table', hload', hexports', rfl⟩ := Run.answer_exports rfl rfl hanswer'
  obtain ⟨hu, rfl⟩ := Prod.mk.inj (hload.symm.trans hload')
  obtain rfl := Except.ok.inj hu
  obtain ⟨htable, rfl⟩ := Prod.mk.inj (hexports.symm.trans hexports')
  obtain rfl := Except.ok.inj htable
  refine ⟨settings, entries, table, s, s₂, hsettings, hanswer, hanswer', rfl, rfl,
    fun hdefault => ?_⟩
  have hs₁ : s₁.AtRest files settings.resolver :=
    Store.Reached.of_load .fresh hload
  rw [FileTree.eval_exports hs₁.running] at hexports
  have hs₂ := hs₁.of_ask (Nat.le_succ files.size) hexports
  obtain ⟨m, hm, hkept⟩ := ExportScan.kept_of_answered hs₁.running hexports
  have hkeeps : s₂.KeepsTable files settings.resolver u table := ⟨hs₂, m, hm, hkept⟩
  exact hkeeps.identities hproper (FileTree.key_of_load hload) hdefault hentries

def Answer.table? : Answer → Option ExportTable
  | types _ => none
  | exports table => some table

def listedCircle : FileTree := .ofTexts
  [("a.d.ts", "export * from './b.js';\nexport interface A \x7b next: B; \x7d\n" ++
      "export default interface D \x7b last: A; \x7d\n"),
   ("b.d.ts", "import \x7b A \x7d from './a.js';\nexport interface B \x7b back: A; \x7d\n")]

def listedCircleArguments : Arguments where
  file := ⟨"a.d.ts"⟩
  names := []
  all := false
  format := none
  baseDir := none
  config := none
  noColor := true

set_option maxRecDepth 100000 in
theorem listings_agree_listedCircle : ∃ o o' settings entries table s s',
    run listedCircle { listedCircleArguments with all := true } ⟨"/w"⟩ = .ok o ∧
    run listedCircle { listedCircleArguments with all := false, names := [] } ⟨"/w"⟩ = .ok o' ∧
    o = Run.outcome settings (.types entries) s ∧ o' = Run.outcome settings (.exports table) s' ∧
    table.names.keys = ["B", "A", "D"] ∧ table.defaultExport.isSome ∧
    entries.map Resolved.identity = table.names.values ++ table.defaultExport.toList := by
  have hruns : ∀ args ∈ [{ listedCircleArguments with all := true },
      { listedCircleArguments with all := false, names := [] }],
      ∃ o, run listedCircle args ⟨"/w"⟩ = .ok o := by
    have hsome : ∀ args ∈ [{ listedCircleArguments with all := true },
        { listedCircleArguments with all := false, names := [] }],
        (run listedCircle args ⟨"/w"⟩).toOption.isSome := by
      decide +kernel
    intro args hargs
    obtain ⟨o, ho⟩ := Option.isSome_iff_exists.1 (hsome args hargs)
    exact ⟨o, eq_ok_of_toOption ho⟩
  obtain ⟨o, hall⟩ := hruns { listedCircleArguments with all := true } (by simp)
  obtain ⟨o', hnone⟩ := hruns { listedCircleArguments with all := false, names := [] } (by simp)
  have hproper : listedCircle.Proper := FileTree.proper_ofTexts _
  obtain ⟨settings, entries, table, s, s', hsettings, -, hanswer, ho, ho', hagree⟩ :=
    listings_agree hproper hall hnone
  have hresolver : settings.resolver = .standard := by
    have hstandard : ((Settings.resolve listedCircle listedCircleArguments ⟨"/w"⟩).toOption.map
        Settings.resolver) = some .standard := by
      decide +kernel
    rw [hsettings] at hstandard
    exact Option.some.inj hstandard
  have htable : (((Run.answer listedCircle
        { listedCircleArguments with all := false, names := [] } ⟨"/w/a.d.ts"⟩).eval
          (.ofOptions .standard)).1.toOption.bind Answer.table?).any fun t =>
        decide (t.names.keys = ["B", "A", "D"] ∧ t.defaultExport.isSome) := by
    decide +kernel
  have hroot : Settings.root listedCircleArguments ⟨"/w"⟩ = ⟨"/w/a.d.ts"⟩ := by decide +kernel
  rw [hresolver, hroot] at hanswer
  rw [hanswer] at htable
  obtain ⟨hkeys, hdefault⟩ := of_decide_eq_true htable
  refine ⟨o, o', settings, entries, table, s, s', hall, hnone, ho, ho', hkeys, hdefault, hagree ?_⟩
  rw [← Option.not_isSome_iff_eq_none, OrderedMap.isSome_get?_iff, hkeys]
  decide

end Typings
