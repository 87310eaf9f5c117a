import Mathlib.Data.Finset.Card
import Typings.Proofs.Running

/-!
# Keys of files

A file's key spells its location and nothing else, so different keys are different locations, and a
key is its own key.  The scans that run at one time are therefore fewer than the files.
-/

namespace Typings

/-! ## Cutting and joining -/

theorem Text.cut_append_sep (sep : Char) (s rest : List Char) :
    Text.cut (· == sep) (s ++ sep :: rest) =
      Text.cut (· == sep) s ++ Text.cut (· == sep) rest :=
  @cut_append_of_pos (· == sep) sep (beq_self_eq_true sep) s rest

theorem Text.cut_of_not_mem (sep : Char) (piece : List Char) (h : sep ∉ piece) :
    Text.cut (· == sep) piece = [piece] := by
  induction piece with
  | nil => rfl
  | cons c piece ih =>
      rw [List.mem_cons, not_or] at h
      have hc : (c == sep) = false := by simpa using Ne.symm h.1
      simp [Text.cut, hc, ih h.2]

theorem Text.cut_append (sep : Char) (piece rest : List Char) (h : sep ∉ piece) :
    Text.cut (· == sep) (piece ++ sep :: rest) = piece :: Text.cut (· == sep) rest := by
  rw [cut_append_sep, cut_of_not_mem sep piece h, List.singleton_append]

theorem Text.not_mem_of_mem_cut (sep : Char) (s : List Char) :
    ∀ piece ∈ Text.cut (· == sep) s, sep ∉ piece := by
  induction s with
  | nil => simp [Text.cut]
  | cons c s ih =>
      intro piece hpiece
      simp only [Text.cut] at hpiece
      split at hpiece
      · rcases List.mem_cons.1 hpiece with rfl | hpiece
        · simp
        · exact ih piece hpiece
      · next hc =>
          have hne : sep ≠ c := by
            rintro rfl
            simp at hc
          split at hpiece
          · obtain rfl := List.mem_singleton.1 hpiece
            simpa using hne
          · next first pieces hcut =>
              rw [hcut] at ih
              rcases List.mem_cons.1 hpiece with rfl | hpiece
              · simp [hne, ih first (List.mem_cons_self ..)]
              · exact ih piece (List.mem_cons_of_mem _ hpiece)

theorem Text.mem_of_mem_cut {p : Char → Bool} {s piece : List Char} {c : Char}
    (hpiece : piece ∈ cut p s) (hc : c ∈ piece) : c ∈ s := by
  induction s generalizing piece with
  | nil =>
      obtain rfl := List.mem_singleton.1 hpiece
      exact hc
  | cons d s ih =>
      simp only [cut] at hpiece
      obtain ⟨first, pieces, hcut⟩ := List.exists_cons_of_ne_nil (cut_ne_nil p s)
      rw [hcut] at hpiece ih
      split at hpiece
      · rcases List.mem_cons.1 hpiece with rfl | hpiece
        · cases hc
        · exact List.mem_cons_of_mem _ (ih hpiece hc)
      · rcases List.mem_cons.1 hpiece with rfl | hpiece
        · rcases List.mem_cons.1 hc with rfl | hc
          · exact List.mem_cons_self ..
          · exact List.mem_cons_of_mem _ (ih (List.mem_cons_self ..) hc)
        · exact List.mem_cons_of_mem _ (ih (List.mem_cons_of_mem _ hpiece) hc)

theorem Path.cut_joinPieces (pieces : List (List Char)) (hne : pieces ≠ [])
    (h : ∀ piece ∈ pieces, '/' ∉ piece) :
    Text.cut (· == '/') (Path.joinPieces pieces) = pieces := by
  induction pieces with
  | nil => exact absurd rfl hne
  | cons piece pieces ih =>
      have hpiece := h piece (List.mem_cons_self ..)
      cases pieces with
      | nil => simpa [Path.joinPieces] using Text.cut_of_not_mem '/' piece hpiece
      | cons next pieces =>
          have hrest := ih (by simp) fun q hq => h q (List.mem_cons_of_mem _ hq)
          simp only [Path.joinPieces, List.intercalate_cons_cons] at hrest ⊢
          rw [List.append_assoc, List.singleton_append, Text.cut_append '/' piece _ hpiece, hrest]

/-! ## Proper locations -/

structure ProperName (name : List Char) : Prop where
  no_slash : '/' ∉ name
  no_filler : Path.isFiller name = false
  no_parent : name ≠ ['.', '.']

def Location.Proper (here : Location) : Prop := ∀ name ∈ here, ProperName name

namespace Path

theorem properName_of_mem_components {p : Path} {name : List Char}
    (h : .name name ∈ p.components) : ProperName name := by
  have hpieces : ∀ piece ∈ p.anatomy.2, '/' ∉ piece := by
    unfold anatomy
    split
    · exact Text.not_mem_of_mem_cut '/' _
    · next s _ =>
        have hall := Text.not_mem_of_mem_cut '/' p.text.toList
        split
        · next body hcut =>
            rw [hcut] at hall
            exact fun piece hp => hall piece (List.mem_cons_of_mem _ hp)
        · exact hall
  have hanchor : some (Component.name name) ≠ p.anatomy.1 := by
    unfold anatomy
    split
    · simp
    · split <;> simp
  rw [components, List.mem_append, Option.mem_toList] at h
  rcases h with h | h
  · exact absurd h.symm hanchor
  · obtain ⟨piece, hpiece, hcomponent⟩ := List.mem_filterMap.1 h
    unfold pieceComponent? at hcomponent
    split at hcomponent
    · cases hcomponent
    · next hfiller =>
        split at hcomponent
        · cases hcomponent
        · next hparent =>
            obtain rfl := Component.name.inj (Option.some.inj hcomponent)
            exact ⟨hpieces _ hpiece, by simpa using hfiller, by simpa using hparent⟩

end Path

namespace FileTree

open Typings.Path

theorem toList_pathOf (here : Location) :
    (pathOf here).text.toList = '/' :: joinPieces here := by
  have hchars : (here.map Component.name).map componentChars = here := by
    rw [List.map_map]
    exact List.map_id here
  simp only [pathOf, ofComponents, ofChars, hchars, String.toList_ofList]

theorem filterMap_pieceComponent? {here : Location} (h : here.Proper) :
    here.filterMap pieceComponent? = here.map .name := by
  have hcomponent : ∀ name ∈ here, pieceComponent? name = some (.name name) := by
    intro name hname
    have hproper := h name hname
    simp [pieceComponent?, hproper.no_filler, hproper.no_parent]
  rw [List.filterMap_congr hcomponent, List.filterMap_eq_map']

theorem components_pathOf {here : Location} (h : here.Proper) :
    (pathOf here).components = .root :: here.map .name := by
  have hanatomy : (pathOf here).anatomy = (some .root, Text.cut (· == '/') (joinPieces here)) := by
    unfold anatomy
    rw [toList_pathOf]
    rfl
  rw [components, hanatomy]
  cases here with
  | nil => rfl
  | cons name here =>
      have hcut := cut_joinPieces (name :: here) (by simp) fun piece hp => (h piece hp).no_slash
      rw [hcut]
      simp only [Option.toList_some, List.singleton_append, List.cons.injEq, true_and]
      exact filterMap_pieceComponent? h

theorem foldl_pushNormal_names (absolute : Bool) (names : Location) (done : List Component) :
    (names.map Component.name).foldl (pushNormal absolute) done =
      (names.map Component.name).reverse ++ done := by
  induction names generalizing done with
  | nil => rfl
  | cons name names ih =>
      simp only [List.map_cons, List.foldl_cons, List.reverse_cons, List.append_assoc]
      exact ih (.name name :: done)

theorem normalize_pathOf {here : Location} (h : here.Proper) :
    (pathOf here).normalize = pathOf here := by
  rw [Path.normalize, components_pathOf h, List.foldl_cons, foldl_pushNormal_names]
  simp only [pushNormal, List.reverse_append, List.reverse_reverse]
  rfl

/-! ## Looking up keys -/

theorem walk_names {files : FileTree} (names : List (List Char)) {here there : Location}
    (h : files.walk here (names.map .name) = .ok there) : there = here ++ names := by
  induction names generalizing here with
  | nil =>
      obtain rfl := Except.ok.inj h
      simp
  | cons name names ih =>
      simp only [List.map_cons, walk, step, child] at h
      split at h
      · cases h
      · next next' hstep =>
          have hnext : next' = here ++ [name] := by
            split at hstep
            · cases hstep
            · split at hstep
              · cases hstep
              · split at hstep
                · cases hstep
                · split at hstep
                  · exact (Except.ok.inj hstep).symm
                  · cases hstep
          rw [ih h, hnext, List.append_assoc]
          rfl

theorem proper_walk {files : FileTree} (cs : List Component) {here there : Location}
    (hcs : ∀ name, .name name ∈ cs → ProperName name) (hproper : here.Proper)
    (h : files.walk here cs = .ok there) : there.Proper := by
  induction cs generalizing here with
  | nil =>
      obtain rfl := Except.ok.inj h
      exact hproper
  | cons c cs ih =>
      simp only [walk] at h
      split at h
      · cases h
      · next next' hstep =>
          refine ih (fun name hname => hcs name (List.mem_cons_of_mem _ hname)) ?_ h
          have honward : ∀ {there : Location}, there.Proper →
              files.onward here there = .ok next' → next'.Proper := by
            intro there hthere heq
            unfold onward at heq
            split at heq
            · obtain rfl := Except.ok.inj heq
              exact hthere
            · cases heq
          cases c with
          | root => exact honward (by simp [Location.Proper]) hstep
          | current => exact honward hproper hstep
          | parent => exact honward (fun name hn => hproper name (List.dropLast_subset _ hn)) hstep
          | name chars =>
              have hone : files.walk here ([chars].map .name) = .ok next' := by
                simp only [List.map_cons, List.map_nil, walk, hstep]
              have hwalk := walk_names [chars] hone
              subst hwalk
              intro name hname
              rcases List.mem_append.1 hname with hname | hname
              · exact hproper name hname
              · obtain rfl := List.mem_singleton.1 hname
                exact hcs name (List.mem_cons_self ..)

/-- The names of the working directory are names. -/
def Proper (files : FileTree) : Prop := Location.Proper files.workingDirectory

/-- Files with the given names and texts, all in one directory, which is the working directory. -/
def ofTexts (texts : List (String × String)) : FileTree :=
  texts.foldl (fun t (name, text) => t.write ["w".toList, name.toList] (.file (some text.toList)))
    (ofWorkingDirectory ["w".toList])

theorem proper_ofTexts (texts : List (String × String)) : (ofTexts texts).Proper := by
  have hkeeps : ∀ (texts : List (String × String)) (t : FileTree),
      (texts.foldl (fun t (name, text) =>
        t.write ["w".toList, name.toList] (.file (some text.toList))) t).workingDirectory =
          t.workingDirectory := by
    intro texts
    induction texts with
    | nil => intro t; rfl
    | cons e texts ih => intro t; exact ih _
  rw [Proper, ofTexts, hkeeps]
  intro name hname
  obtain rfl := List.mem_singleton.1 hname
  exact ⟨by decide, by decide, by decide⟩

theorem Proper.locate {files : FileTree} (h : files.Proper) {p : Path} {here : Location}
    (hlocate : files.locate p = .ok here) : here.Proper := by
  unfold FileTree.locate at hlocate
  split at hlocate
  · cases hlocate
  · split at hlocate
    · cases hlocate
    · split at hlocate
      · cases hlocate
      · next hwalk =>
          split at hlocate
          · cases hlocate
          · obtain rfl := Except.ok.inj hlocate
            exact proper_walk _ (fun _ hname => properName_of_mem_components hname) h hwalk

theorem locate_pathOf {files : FileTree} {here there : Location} (h : here.Proper)
    (hlocate : files.locate (pathOf here) = .ok there) : there = here := by
  unfold locate at hlocate
  split at hlocate
  · cases hlocate
  · split at hlocate
    · cases hlocate
    · split at hlocate
      · cases hlocate
      · next hwalk =>
          split at hlocate
          · cases hlocate
          · obtain rfl := Except.ok.inj hlocate
            rw [components_pathOf h] at hwalk
            simp only [walk, step, onward] at hwalk
            split at hwalk
            · cases hwalk
            · next hstep =>
                split at hstep
                · obtain rfl := Except.ok.inj hstep
                  exact walk_names here hwalk
                · cases hstep

theorem exists_pathOf_of_key {files : FileTree} (h : files.Proper) {p key : Path}
    (hkey : files.key p = .ok key) : ∃ here : Location, here.Proper ∧ key = pathOf here := by
  unfold FileTree.key canonicalize at hkey
  cases hlocate : files.locate p.normalize with
  | error e => cases e <;> simp [hlocate, Except.map] at hkey
  | ok here =>
      simp only [hlocate, Except.map, Except.ok.injEq] at hkey
      exact ⟨here, h.locate hlocate, hkey.symm⟩

theorem locate_of_read {files : FileTree} {p : Path} {text : List Char}
    (h : files.read p = .ok text) :
    ∃ here, files.locate p = .ok here ∧ files.node? here = some (.file (some text)) := by
  have hlookUp : files.lookUp p = .ok (.file (some text)) := by
    unfold FileTree.read at h
    split at h
    · cases h
    · cases h
    · cases h
    · next heq =>
        obtain rfl := Except.ok.inj h
        exact heq
  unfold lookUp at hlookUp
  split at hlookUp
  · cases hlookUp
  · split at hlookUp
    · cases hlookUp
    · next here hlocate =>
        refine ⟨here, hlocate, ?_⟩
        split at hlookUp
        · next node hnode =>
            rw [hnode, Except.ok.inj hlookUp]
        · cases hlookUp

theorem IsKey.key_eq {files : FileTree} (h : files.Proper) {p : Path} (hp : files.IsKey p)
    {text : List Char} (hread : files.read p = .ok text) : files.key p = .ok p := by
  rcases hp with ⟨q, hq⟩
  obtain ⟨here, hproper, rfl⟩ := exists_pathOf_of_key h hq
  obtain ⟨there, hlocate, -⟩ := locate_of_read hread
  obtain rfl := locate_pathOf hproper hlocate
  simp only [FileTree.key, canonicalize, normalize_pathOf hproper, hlocate, Except.map]

theorem IsKey.eq_of_key {files : FileTree} (h : files.Proper) {p q : Path} (hp : files.IsKey p)
    (hq : files.key p = .ok q) : q = p := by
  rcases hp with ⟨_, hp⟩
  obtain ⟨here, hproper, rfl⟩ := exists_pathOf_of_key h hp
  simp only [FileTree.key, canonicalize, normalize_pathOf hproper] at hq
  cases hlocate : files.locate (pathOf here) with
  | error reason => cases reason <;> simp [hlocate, Except.map] at hq
  | ok there =>
      obtain rfl := locate_pathOf hproper hlocate
      simpa [hlocate, Except.map] using hq.symm

theorem IsKey.eq_of_same {files : FileTree} (h : files.Proper) {p q : Path} (hp : files.IsKey p)
    (hq : files.IsKey q) (hsame : p.same q = true) : p = q := by
  rcases hp with ⟨_, hp⟩
  rcases hq with ⟨_, hq⟩
  obtain ⟨here, hhere, rfl⟩ := exists_pathOf_of_key h hp
  obtain ⟨there, hthere, rfl⟩ := exists_pathOf_of_key h hq
  rw [same_iff, components_pathOf hhere, components_pathOf hthere, List.cons.injEq] at hsame
  have heq := List.map_injective_iff.2 (fun a b hab => Component.name.inj hab) hsame.2
  rw [heq]

/-! ## The number of keys -/

def locations (files : FileTree) : List Path := files.nodes.keys.map pathOf

theorem length_locations (files : FileTree) : files.locations.length = files.size := by
  simp [locations, OrderedMap.keys, size, OrderedMap.size]

def filePaths (files : FileTree) : Finset Path :=
  ((files.nodes.keys.filter fun here => (files.node? here).any (· != .directory)).map
    pathOf).toFinset

theorem mem_locations_of_mem_filePaths {files : FileTree} {p : Path} (h : p ∈ files.filePaths) :
    p ∈ files.locations := by
  obtain ⟨here, hhere, rfl⟩ := List.mem_map.1 (List.mem_toFinset.1 h)
  exact List.mem_map_of_mem (List.mem_of_mem_filter hhere)

theorem card_filePaths_le (files : FileTree) : files.filePaths.card ≤ files.size := by
  refine (List.toFinset_card_le _).trans ?_
  rw [List.length_map, ← length_locations, locations, List.length_map]
  exact List.length_filter_le _ _

theorem IsKey.mem_filePaths {files : FileTree} (h : files.Proper) {p : Path} (hp : files.IsKey p)
    {text : List Char} (hread : files.read p = .ok text) : p ∈ files.filePaths := by
  rcases hp with ⟨q, hq⟩
  obtain ⟨here, hproper, rfl⟩ := exists_pathOf_of_key h hq
  obtain ⟨there, hlocate, hnode⟩ := locate_of_read hread
  obtain rfl := locate_pathOf hproper hlocate
  refine List.mem_toFinset.2 (List.mem_map_of_mem (List.mem_filter.2 ⟨?_, by rw [hnode]; rfl⟩))
  unfold node? at hnode
  split at hnode
  · cases hnode
  · rw [← OrderedMap.isSome_get?_iff, hnode]
    rfl

theorem IsKey.mem_locations {files : FileTree} (h : files.Proper) {p : Path} (hp : files.IsKey p)
    {text : List Char} (hread : files.read p = .ok text) : p ∈ files.locations :=
  mem_locations_of_mem_filePaths (hp.mem_filePaths h hread)

end FileTree

namespace Store

variable {files : FileTree} {options : ResolverOptions} {stack : List Path} {s : Store}

theorem Running.mem_filePaths (hproper : files.Proper) (h : s.Running files options stack)
    {q : Path} (hq : (s.module? q).isSome) : q ∈ files.filePaths := by
  obtain ⟨m, hm⟩ := Option.isSome_iff_exists.1 hq
  have hfile := h.isFile q m hm
  exact hfile.isKey.mem_filePaths hproper hfile.read_eq

theorem Running.length_le (hproper : files.Proper) (h : s.Running files options stack) :
    stack.length ≤ files.filePaths.card := by
  rw [← List.toFinset_card_of_nodup h.nodup]
  refine Finset.card_le_card fun q hq => ?_
  exact h.mem_filePaths hproper (h.isSome_of_mem q (List.mem_toFinset.1 hq))

theorem Running.length_lt (hproper : files.Proper) (h : s.Running files options stack) {p : Path}
    {m : Module} (hm : s.module? p = some m) (hw : m.pending = none) :
    stack.length < files.filePaths.card := by
  have hp : p ∈ files.filePaths := h.mem_filePaths hproper (by rw [hm]; rfl)
  rw [← List.toFinset_card_of_nodup h.nodup]
  refine Finset.card_lt_card ⟨fun q hq => ?_, fun hsubset => ?_⟩
  · exact h.mem_filePaths hproper (h.isSome_of_mem q (List.mem_toFinset.1 hq))
  · exact h.not_mem_of_idle hm hw (List.mem_toFinset.1 (hsubset hp))

end Store

end Typings
