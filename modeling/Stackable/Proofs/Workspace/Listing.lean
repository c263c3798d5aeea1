import Mathlib.Data.List.Forall2
import Stackable.Proofs.Workspace.Sources
import Stackable.Table

/-!
# The order of listings

A directory lists its entries in any order. Trees that differ in this only lead to the same places,
so the same source files are collected from them, in the same order.
-/

set_option autoImplicit false

namespace Stackable

open Sources (IsSource IsStray Readable Under)

/-- The same tree, but for the order in which directories list their entries. -/
inductive FileNode.Reordered : FileNode → FileNode → Prop where
  | refl (node : FileNode) : Reordered node node
  | listing {entries entries' : List (String × FileNode)} :
      entries.Perm entries' → Reordered (.directory entries) (.directory entries')
  | inside {name : String} {node node' : FileNode} {rest : List (String × FileNode)} :
      Reordered node node' →
      Reordered (.directory ((name, node) :: rest)) (.directory ((name, node') :: rest))
  | trans {a b c : FileNode} : Reordered a b → Reordered b c → Reordered a c

/-- The same error, or results that are related. -/
inductive Agree {α : Type} (r : α → α → Prop) :
    Except AccessError α → Except AccessError α → Prop where
  | ok {a b : α} : r a b → Agree r (.ok a) (.ok b)
  | error (e : AccessError) : Agree r (.error e) (.error e)

/-- The paths lead to the same nodes, but for the order of listings. -/
def Workspace.Reorders (w w' : Workspace) : Prop :=
  ∀ path, Agree FileNode.Reordered (w.find path) (w'.find path)

section Agree

variable {α β : Type} {r : α → α → Prop} {s : β → β → Prop} {x y : Except AccessError α}

theorem Agree.flip {r' : α → α → Prop} (h : Agree r x y) (hr : ∀ a b, r a b → r' b a) :
    Agree r' y x := by
  cases h with
  | ok hab => exact .ok (hr _ _ hab)
  | error e => exact .error e

theorem Agree.bind (h : Agree r x y) {f g : α → Except AccessError β}
    (hfg : ∀ a b, r a b → Agree s (f a) (g b)) : Agree s (x >>= f) (y >>= g) := by
  cases h with
  | ok hab => exact hfg _ _ hab
  | error e => exact .error e

end Agree

namespace FileNode.Reordered

theorem symm {a b : FileNode} (h : Reordered a b) : Reordered b a := by
  induction h with
  | refl node => exact .refl node
  | listing hPerm => exact .listing hPerm.symm
  | inside _ ih => exact .inside ih
  | trans _ _ ihab ihbc => exact .trans ihbc ihab

theorem eq_of_not_directory {a b : FileNode} (h : Reordered a b)
    (ha : ∀ entries, a ≠ .directory entries) : b = a := by
  induction h with
  | refl _ => rfl
  | listing _ | inside _ _ => exact absurd rfl (ha _)
  | trans _ _ ihab ihbc =>
    obtain rfl := ihab ha
    exact ihbc ha

/-- What is listed is listed in the other order as well. -/
theorem exists_listing {a b : FileNode} (h : Reordered a b) {entries : List (String × FileNode)}
    (ha : a = .directory entries) :
    ∃ entries', b = .directory entries' ∧
      ∀ name node, (name, node) ∈ entries →
        ∃ node', (name, node') ∈ entries' ∧ Reordered node node' := by
  induction h generalizing entries with
  | refl _ => exact ⟨entries, ha, fun name node hMem => ⟨node, hMem, .refl node⟩⟩
  | listing hPerm =>
    obtain rfl := FileNode.directory.inj ha
    exact ⟨_, rfl, fun name node hMem => ⟨node, hPerm.mem_iff.mp hMem, .refl node⟩⟩
  | inside hNode _ =>
    obtain rfl := FileNode.directory.inj ha
    refine ⟨_, rfl, fun name node hMem => ?_⟩
    rcases List.mem_cons.mp hMem with hEq | hMem
    · obtain ⟨rfl, rfl⟩ := Prod.mk.inj hEq
      exact ⟨_, List.mem_cons_self, hNode⟩
    · exact ⟨node, List.mem_cons_of_mem _ hMem, .refl node⟩
  | trans _ _ ihab ihbc =>
    obtain ⟨middle, hMiddle, hab⟩ := ihab ha
    obtain ⟨entries', hEntries', hbc⟩ := ihbc hMiddle
    refine ⟨entries', hEntries', fun name node hMem => ?_⟩
    obtain ⟨node', hMem', hNode'⟩ := hab name node hMem
    obtain ⟨node'', hMem'', hNode''⟩ := hbc name node' hMem'
    exact ⟨node'', hMem'', .trans hNode' hNode''⟩

theorem isFile_eq {a b : FileNode} (h : Reordered a b) : b.isFile = a.isFile := by
  cases a with
  | directory entries =>
    obtain ⟨entries', rfl, _⟩ := h.exists_listing rfl
    rfl
  | _ => rw [h.eq_of_not_directory (by simp)]

theorem isDirectoryAt_eq {a b : FileNode} (h : Reordered a b) (path : String) :
    b.isDirectoryAt path = a.isDirectoryAt path := by
  cases a with
  | directory entries =>
    obtain ⟨entries', rfl, _⟩ := h.exists_listing rfl
    rfl
  | _ => rw [h.eq_of_not_directory (by simp)]

theorem listable {a b : FileNode} (h : Reordered a b) {path : String} (ha : a.Listable path) :
    b.Listable path := by
  rintro reason rfl
  exact ha reason (h.symm.eq_of_not_directory (by simp))

end FileNode.Reordered

theorem Sources.Under.reordered {c : Config} {path q name : String}
    {entries : List (String × FileNode)}
    {node : FileNode} (h : Under c path entries q name node) {entries' : List (String × FileNode)}
    (hOrder : FileNode.Reordered (.directory entries) (.directory entries')) :
    ∃ node', Under c path entries' q name node' ∧ node.Reordered node' := by
  induction h generalizing entries' with
  | entry hMem hKeeps =>
    obtain ⟨_, hEq, hListing⟩ := hOrder.exists_listing rfl
    obtain rfl := FileNode.directory.inj hEq
    obtain ⟨node', hMem', hNode'⟩ := hListing _ _ hMem
    exact ⟨node', .entry hMem' hKeeps, hNode'⟩
  | deeper hMem hKeeps hShort _ ih =>
    obtain ⟨_, hEq, hListing⟩ := hOrder.exists_listing rfl
    obtain rfl := FileNode.directory.inj hEq
    obtain ⟨inner, hMem', hInner⟩ := hListing _ _ hMem
    obtain ⟨inner', rfl, _⟩ := hInner.exists_listing rfl
    obtain ⟨node', hUnder, hNode'⟩ := ih hInner
    exact ⟨node', .deeper hMem' hKeeps hShort hUnder, hNode'⟩

namespace Workspace.Reorders

variable {w w' : Workspace} {c : Config}

theorem symm (h : w.Reorders w') : w'.Reorders w := fun path =>
  (h path).flip fun _ _ => FileNode.Reordered.symm

theorem exists_node (h : w.Reorders w') {path : String} {node : FileNode}
    (hNode : w.find path = .ok node) : ∃ node', w'.find path = .ok node' ∧ node.Reordered node' := by
  have hAgree := h path
  rw [hNode] at hAgree
  generalize w'.find path = found at hAgree
  cases hAgree with
  | ok hOrder => exact ⟨_, rfl, hOrder⟩

theorem exists_directory (h : w.Reorders w') {path : String} {entries : List (String × FileNode)}
    (hNode : w.find path = .ok (.directory entries)) :
    ∃ entries', w'.find path = .ok (.directory entries') ∧
      FileNode.Reordered (.directory entries) (.directory entries') := by
  obtain ⟨node', hNode', hOrder⟩ := h.exists_node hNode
  obtain ⟨entries', rfl, _⟩ := hOrder.exists_listing rfl
  exact ⟨entries', hNode', hOrder⟩

theorem isFile_eq (h : w.Reorders w') {path : String} (hFile : w.isFile path = true) :
    w'.isFile path = true := by
  unfold Workspace.isFile at hFile
  split at hFile
  · next node hNode =>
    obtain ⟨node', hNode', hOrder⟩ := h.exists_node hNode
    rw [Workspace.isFile, hNode', ← hFile]
    exact hOrder.isFile_eq
  · cases hFile

theorem isSource (h : w.Reorders w') {path q : String} (hSource : IsSource w c path q) :
    IsSource w' c path q := by
  cases hSource with
  | named hFile => exact .named (h.isFile_eq hFile)
  | below hNode hUnder hFile hName =>
    obtain ⟨entries', hNode', hOrder⟩ := h.exists_directory hNode
    obtain ⟨node', hUnder', hOrder'⟩ := hUnder.reordered hOrder
    exact .below hNode' hUnder' (hOrder'.isFile_eq.trans hFile) hName

theorem isStray (h : w.Reorders w') {path q : String} (hStray : IsStray w c path q) :
    IsStray w' c path q := by
  obtain ⟨entries, name, node, hNode, hUnder, hFile, hTaken, hName⟩ := hStray
  obtain ⟨entries', hNode', hOrder⟩ := h.exists_directory hNode
  obtain ⟨node', hUnder', hOrder'⟩ := hUnder.reordered hOrder
  exact ⟨entries', name, node', hNode', hUnder', hOrder'.isFile_eq.trans hFile,
    (hOrder'.isDirectoryAt_eq q).trans hTaken, hName⟩

theorem readable (h : w.Reorders w') {path : String} (hRead : Readable w c path) :
    Readable w' c path where
  exists_node := by
    rcases hRead.exists_node with hFile | ⟨entries, hNode⟩
    · exact .inl (h.isFile_eq hFile)
    · obtain ⟨entries', hNode', -⟩ := h.exists_directory hNode
      exact .inr ⟨entries', hNode'⟩
  below entries' hNode' q name node' hUnder' := by
    obtain ⟨entries, hNode, hOrder⟩ := h.symm.exists_directory hNode'
    obtain ⟨node, hUnder, hOrder'⟩ := hUnder'.reordered hOrder
    exact hOrder'.symm.listable (hRead.below entries hNode q name node hUnder)

end Workspace.Reorders

/-- The names in every directory differ. -/
inductive FileNode.Distinct : FileNode → Prop where
  | file (content : ByteArray) : Distinct (.file content)
  | unreadable (reason : String) : Distinct (.unreadable reason)
  | locked (reason : String) : Distinct (.locked reason)
  | special (reading : Except AccessError ByteArray) : Distinct (.special reading)
  | broken (cause : AccessError) : Distinct (.broken cause)
  | directory {entries : List (String × FileNode)} :
      (entries.map (·.1)).Nodup → (∀ e ∈ entries, e.2.Distinct) → Distinct (.directory entries)

namespace FileNode

theorem Reordered.distinct {a b : FileNode} (h : Reordered a b) (ha : a.Distinct) : b.Distinct := by
  induction h with
  | refl _ => exact ha
  | listing hPerm =>
    cases ha with
    | directory hNodup hEntries =>
      exact .directory ((hPerm.map _).nodup hNodup) fun e he => hEntries e (hPerm.mem_iff.mpr he)
  | inside _ ih =>
    cases ha with
    | directory hNodup hEntries =>
      refine .directory hNodup fun e he => ?_
      rcases List.mem_cons.mp he with rfl | he
      · exact ih (hEntries _ List.mem_cons_self)
      · exact hEntries e (List.mem_cons_of_mem _ he)
  | trans _ _ ihab ihbc => exact ihbc (ihab ha)

/-- Trees that differ in the order of listings, with one node for a name. -/
structure Alike (a b : FileNode) : Prop where
  reordered : a.Reordered b
  distinct : a.Distinct

theorem Alike.symm {a b : FileNode} (h : Alike a b) : Alike b a :=
  ⟨h.reordered.symm, h.reordered.distinct h.distinct⟩

theorem Alike.lookup {entries entries' : List (String × FileNode)}
    (h : Alike (.directory entries) (.directory entries')) {name : String} {node : FileNode}
    (hNode : entries.lookup name = some node) :
    ∃ node', entries'.lookup name = some node' ∧ Alike node node' := by
  obtain ⟨_, hEq, hListing⟩ := h.reordered.exists_listing rfl
  obtain rfl := FileNode.directory.inj hEq
  cases h.symm.distinct with
  | directory hNodup' _ =>
    cases h.distinct with
    | directory hNodup hEntries =>
      have hMem := (lookup_eq_some_iff_mem hNodup).mp hNode
      obtain ⟨node', hMem', hNode'⟩ := hListing name node hMem
      exact ⟨node', (lookup_eq_some_iff_mem hNodup').mpr hMem', hNode', hEntries _ hMem⟩

theorem Alike.lookup_eq_none {entries entries' : List (String × FileNode)}
    (h : Alike (.directory entries) (.directory entries')) {name : String}
    (hNode : entries.lookup name = none) : entries'.lookup name = none := by
  cases hNode' : entries'.lookup name with
  | none => rfl
  | some node' =>
    obtain ⟨node, hFound, _⟩ := h.symm.lookup hNode'
    rw [hNode] at hFound
    cases hFound

theorem step_agree {stack stack' : List FileNode} (h : List.Forall₂ Alike stack stack')
    (segment : String) :
    Agree (List.Forall₂ Alike) (step stack segment) (step stack' segment) := by
  cases h with
  | nil => exact .error _
  | @cons node node' above above' hNode hAbove =>
    cases node with
    | directory entries =>
      obtain ⟨entries', rfl, _⟩ := hNode.reordered.exists_listing rfl
      have hEmpty : above'.isEmpty = above.isEmpty := by cases hAbove <;> rfl
      simp only [step, hEmpty]
      -- The two sides test the same conditions up to the look-up.
      split
      · exact .ok (.cons hNode hAbove)
      split
      · cases above.isEmpty with
        | true => exact .ok (.cons hNode hAbove)
        | false => exact .ok hAbove
      split
      · exact .error _
      cases hFound : entries.lookup segment with
      | none =>
        rw [hNode.lookup_eq_none hFound]
        exact .error _
      | some found =>
        obtain ⟨found', hFound', hAlike⟩ := hNode.lookup hFound
        rw [hFound']
        cases found with
        | broken cause =>
          rw [hAlike.reordered.eq_of_not_directory (by simp)]
          exact .error cause
        | directory inner =>
          obtain ⟨inner', rfl, -⟩ := hAlike.reordered.exists_listing rfl
          exact .ok (.cons hAlike (.cons hNode hAbove))
        | _ =>
          obtain rfl := hAlike.reordered.eq_of_not_directory (by simp)
          exact .ok (.cons hAlike (.cons hNode hAbove))
    | file _ | unreadable _ | locked _ | special _ | broken _ =>
      rw [hNode.reordered.eq_of_not_directory (by simp)]
      exact .error _

theorem foldlM_step_agree (segments : List String) {stack stack' : List FileNode}
    (h : List.Forall₂ Alike stack stack') :
    Agree (List.Forall₂ Alike) (segments.foldlM step stack) (segments.foldlM step stack') := by
  induction segments generalizing stack stack' with
  | nil => exact .ok h
  | cons segment segments ih =>
    rw [List.foldlM_cons, List.foldlM_cons]
    exact (step_agree h segment).bind fun _ _ => ih

/-- Another order of listings in a tree leads everywhere as before. -/
theorem Alike.reorders {top top' : FileNode} (h : Alike top top') (directory : List String) :
    (Workspace.ofTree top directory).Reorders (Workspace.ofTree top' directory) := by
  intro path
  have hTop : List.Forall₂ Alike [top] [top'] := .cons h .nil
  simp only [Workspace.ofTree, find]
  cases AccessError.ofPath? path with
  | some e => exact .error e
  | none =>
    have hWay {start start' : List FileNode} (h : List.Forall₂ Alike start start') :=
      foldlM_step_agree (Path.segments path) h
    dsimp only
    split
    · refine (hWay hTop).bind fun stack stack' h => ?_
      cases h with
      | nil => exact .error _
      | cons hNode _ => exact .ok hNode.reordered
    · refine (foldlM_step_agree directory hTop).bind fun start start' h => ?_
      refine (hWay h).bind fun stack stack' h => ?_
      cases h with
      | nil => exact .error _
      | cons hNode _ => exact .ok hNode.reordered

end FileNode

/-! ## What is collected -/

/-- For paths that can be searched, the list that is collected ascends strictly, holds a path
exactly if it is a source file of one of them or a stray, and is the same for these paths in any
order and number and for any order of listings. If a path is neither a file nor a directory, no list
is collected. -/
theorem Sources.collect_sorted_sources (w : Workspace) (c : Config) (paths : List String) :
    ((∀ p ∈ paths, Readable w c p) →
      ∃ files, collect w c paths = .ok files ∧
        files.Pairwise Path.Before ∧
        (∀ q ∈ files, ∃ p ∈ paths, IsSource w c p q ∨ IsStray w c p q) ∧
        (∀ p ∈ paths, ∀ q, IsSource w c p q ∨ IsStray w c p q →
          ∃ f ∈ files, Path.components f = Path.components q) ∧
        ∀ w' paths', w.Reorders w' → (∀ p, p ∈ paths' ↔ p ∈ paths) →
          ∃ files', collect w' c paths' = .ok files' ∧
            files'.map Path.components = files.map Path.components) ∧
    ((∃ p ∈ paths, w.isFile p = false ∧ w.isDirectory p = false) →
      ∃ e, collect w c paths = .error e) := by
  refine ⟨fun hRead => ?_, fun ⟨p, hMem, hFile, hDirectory⟩ =>
    collect_eq_error ⟨p, hMem, _, named_eq_error hFile hDirectory⟩⟩
  obtain ⟨files, hFiles, hSorted, hSound, hComplete⟩ := collect_spec hRead
  refine ⟨files, hFiles, hSorted, hSound, hComplete, fun w' paths' hOrder hPaths => ?_⟩
  obtain ⟨files', hFiles', hSorted', hSound', hComplete'⟩ := collect_spec fun p hp =>
    hOrder.readable (hRead p ((hPaths p).mp hp))
  refine ⟨files', hFiles', Path.map_components_eq hSorted' hSorted (fun q hq => ?_) fun q hq => ?_⟩
  · obtain ⟨p, hp, hTaken⟩ := hSound' q hq
    exact hComplete p ((hPaths p).mp hp) q (hTaken.imp hOrder.symm.isSource hOrder.symm.isStray)
  · obtain ⟨p, hp, hTaken⟩ := hSound q hq
    exact hComplete' p ((hPaths p).mpr hp) q (hTaken.imp hOrder.isSource hOrder.isStray)

/-- A directory in which a directory of source files is listed beside a script. -/
def Sources.sampleTree (listing : List (String × FileNode)) : FileNode :=
  .directory [("src", .directory listing), ("script.csx", .file .empty)]

/-- Two files, the broken link that an editor leaves beside one that it changes, and a directory. -/
def Sources.sampleListing : List (String × FileNode) :=
  [("b.cs", .file .empty), ("gen", .directory [("big.cs", .file .empty)]),
    (".#a.cs", .broken .notFound), ("a.cs", .file .empty)]

theorem Sources.distinct_sampleTree : (sampleTree sampleListing).Distinct := by
  have hGen : (FileNode.directory [("big.cs", .file .empty)]).Distinct :=
    .directory (by decide) (by simpa using .file _)
  have hListing : (FileNode.directory sampleListing).Distinct := by
    refine .directory (by decide) ?_
    simpa [sampleListing] using ⟨.file _, hGen, .broken _, .file _⟩
  refine .directory (by decide) ?_
  simpa using ⟨hListing, .file _⟩

theorem Sources.readable_sampleListing {w : Workspace} {c : Config} {path : String}
    (hFind : w.find path = .ok (.directory sampleListing)) : Readable w c path := by
  refine ⟨.inr ⟨_, hFind⟩, fun entries hEntries q name node h reason hLocked => ?_⟩
  obtain rfl : sampleListing = entries := by simpa [hFind] using hEntries
  subst hLocked
  simp [sampleListing, under_cons, under_nil] at h

/-- A directory that is named twice and a script, with the directory listed the other way round, and
a path that leads nowhere. -/
theorem Sources.collect_sorted_sources_sample :
    (∃ files files',
      collect (.ofTree (sampleTree sampleListing) []) { excludedNames := ["gen"] }
        ["src", "script.csx", "src/"] = .ok files ∧
      collect (.ofTree (sampleTree sampleListing.reverse) []) { excludedNames := ["gen"] }
        ["script.csx", "src/", "src"] = .ok files' ∧
      files'.map Path.components = files.map Path.components ∧ files.Pairwise Path.Before) ∧
    ∃ e, collect (.ofTree (sampleTree sampleListing) []) { excludedNames := ["gen"] }
      ["src", "lib"] = .error e := by
  have hAlike : FileNode.Alike (sampleTree sampleListing) (sampleTree sampleListing.reverse) :=
    ⟨.inside (.listing (List.reverse_perm _).symm), distinct_sampleTree⟩
  have hScript : (Workspace.ofTree (sampleTree sampleListing) []).find "script.csx" =
      .ok (.file .empty) := rfl
  have hRead : ∀ p ∈ ["src", "script.csx", "src/"],
      Readable (.ofTree (sampleTree sampleListing) []) { excludedNames := ["gen"] } p := by
    intro p hp
    simp only [List.mem_cons, List.not_mem_nil, or_false] at hp
    rcases hp with rfl | rfl | rfl
    · exact readable_sampleListing rfl
    · exact ⟨.inl rfl, fun _ h => by simp [hScript] at h⟩
    · exact readable_sampleListing rfl
  obtain ⟨files, hFiles, hSorted, -, -, hSame⟩ := (collect_sorted_sources _ _ _).1 hRead
  obtain ⟨files', hFiles', hComponents⟩ :=
    hSame (.ofTree (sampleTree sampleListing.reverse) []) ["script.csx", "src/", "src"]
      (hAlike.reorders []) fun p => by simp only [List.mem_cons, List.not_mem_nil, or_false]; grind
  exact ⟨⟨files, files', hFiles, hFiles', hComponents, hSorted⟩,
    (collect_sorted_sources _ _ _).2 ⟨"lib", by simp, rfl, rfl⟩⟩

/-- The path can be searched, and what is collected for it is no source file. -/
structure Sources.CollectsStray (w : Workspace) (c : Config) (path q : String) : Prop where
  readable : Readable w c path
  collected : collect w c [path] = .ok [q]
  no_source : ∀ s, ¬IsSource w c path s

theorem Sources.collectsStray_of_find {w : Workspace} {c : Config} {path name : String}
    {node : FileNode} (hNode : w.find path = .ok (.directory [(name, node)]))
    (hKeeps : c.Keeps (Path.join path name)) (hName : Path.HasSourceExtension name)
    (hFile : node.isFile = false) (hTaken : node.isDirectoryAt (Path.join path name) = false) :
    CollectsStray w c path (Path.join path name) := by
  -- Nothing is entered: what is listed is no directory that can be looked up.
  have hUnder : ∀ {q last found}, Under c path [(name, node)] q last found →
      q = Path.join path name ∧ found = node := by
    intro q last found h
    rcases under_cons.mp h with ⟨-, ⟨rfl, -, rfl⟩ | ⟨hShort, inner, rfl, -⟩⟩ | h
    · exact ⟨rfl, rfl⟩
    · simp [FileNode.isDirectoryAt, hShort] at hTaken
    · exact absurd h under_nil
  have hBelow : below c (Path.join path name) name node = .ok [Path.join path name] := by
    have hMem : byName (Path.join path name) name = [Path.join path name] := by
      rw [byName, if_pos (Path.isSourceName_iff.mpr hName)]
    cases node with
    | directory _ | locked _ =>
      have hLong : Path.isTooLong (Path.join path name) = true := by
        simpa [FileNode.isDirectoryAt] using hTaken
      rw [below, if_pos hLong, hMem]
    | _ => rw [below, hMem]
  refine ⟨⟨.inr ⟨_, hNode⟩, fun entries hEntries q last found h reason hLocked => ?_⟩, ?_, ?_⟩
  · obtain rfl : [(name, node)] = entries := by simpa [hNode] using hEntries
    obtain ⟨rfl, rfl⟩ := hUnder h
    subst hLocked
    simpa [FileNode.isDirectoryAt] using hTaken
  · have hNamed : named w c path = .ok [Path.join path name] := by
      rw [named, hNode]
      simp only [belowEntries, Config.isExcluded_eq_false_iff.mpr hKeeps, hBelow]
      rfl
    have hArrange : arrange [Path.join path name] = [Path.join path name] := by
      rw [arrange, List.mergeSort_singleton]
      rfl
    rw [collect, List.mapM_cons, hNamed]
    exact congrArg Except.ok hArrange
  · rintro q (hNamed | ⟨hEntries, h, hSource, -⟩)
    · simp [Workspace.isFile, hNode, FileNode.isFile] at hNamed
    · obtain rfl := (FileNode.directory.inj (Except.ok.inj (hNode.symm.trans hEntries)))
      obtain ⟨rfl, rfl⟩ := hUnder h
      rw [hFile] at hSource
      cases hSource

def Sources.linkTree : FileNode :=
  .directory [("src", .directory [(".#a.cs", .broken .notFound)])]

def Sources.nestedTree : FileNode := .directory [("a.cs", .directory [])]

/-- The working directory, by a path of any length. -/
def Sources.wayHere : Nat → String
  | 0 => "."
  | n + 1 => wayHere n ++ "/"

theorem Sources.toList_wayHere (n : Nat) : (wayHere n).toList = '.' :: List.replicate n '/' := by
  induction n with
  | zero => rfl
  | succ n ih => rw [wayHere, String.toList_append, ih, List.replicate_succ']; rfl

theorem Sources.utf8ByteSize_wayHere (n : Nat) : (wayHere n).utf8ByteSize = n + 1 := by
  induction n with
  | zero => rfl
  | succ n ih => rw [wayHere, String.utf8ByteSize_append, ih]; rfl

theorem Sources.segments_wayHere (n : Nat) :
    Path.segments (wayHere n) = "." :: List.replicate n "" := by
  have hSplit : (List.replicate n '/').splitOn '/' = List.replicate (n + 1) [] := by
    induction n with
    | zero => rfl
    | succ n ih => rw [List.replicate_succ, List.splitOn_cons_eq_if_modifyHead, ih]; rfl
  rw [Path.segments, toList_wayHere, List.splitOn_cons_eq_if_modifyHead, hSplit]
  simp [List.replicate_succ]

theorem Sources.find_wayHere {n : Nat} (hShort : n < 4095) {entries : List (String × FileNode)} :
    (Workspace.ofTree (.directory entries) []).find (wayHere n) = .ok (.directory entries) := by
  have hPath : AccessError.ofPath? (wayHere n) = none := by
    have hEmpty : (wayHere n).isEmpty = false := by
      rw [String.isEmpty, utf8ByteSize_wayHere]
      rfl
    have hZero : (wayHere n).toList.contains '\x00' = false := by
      rw [toList_wayHere]
      simp
    have hFits : Path.isTooLong (wayHere n) = false := by
      rw [Path.isTooLong, utf8ByteSize_wayHere, Path.maxSize]
      simp only [decide_eq_false_iff_not]
      omega
    simp only [AccessError.ofPath?, hZero, hEmpty, hFits, Bool.false_eq_true, if_false]
  have hStay : ∀ k, (List.replicate k "").foldlM FileNode.step [.directory entries] =
      .ok [.directory entries] := by
    intro k
    induction k with
    | zero => rfl
    | succ k ih => exact ih
  have hAbsolute : Path.isAbsolute (wayHere n) = false := by simp [Path.isAbsolute, toList_wayHere]
  have hWay : (Path.segments (wayHere n)).foldlM FileNode.step [.directory entries] =
      .ok [.directory entries] := by
    rw [segments_wayHere, List.foldlM_cons]
    exact hStay n
  simp only [Workspace.ofTree, FileNode.find, hPath, hAbsolute, List.foldlM_nil, Bool.false_eq_true,
    if_false, pure_bind, hWay]
  rfl

/-- A broken link, and a directory whose path cannot be looked up. -/
theorem Sources.exists_stray_collected :
    CollectsStray (.ofTree linkTree []) {} "src" "src/.#a.cs" ∧
      CollectsStray (.ofTree nestedTree []) {} (wayHere 4092) (wayHere 4092 ++ "a.cs") := by
  have hJoin : Path.join "src" ".#a.cs" = "src/.#a.cs" := by decide
  have hWay : Path.join (wayHere 4092) "a.cs" = wayHere 4092 ++ "a.cs" := by
    have hLast : (wayHere 4092).toList.getLast? = some '/' := by
      rw [toList_wayHere, List.replicate_succ', ← List.cons_append, List.getLast?_concat]
    rw [Path.join, if_pos (by simp [hLast])]
  have hLong : Path.isTooLong (wayHere 4092 ++ "a.cs") = true := by
    rw [Path.isTooLong, String.utf8ByteSize_append, utf8ByteSize_wayHere]
    decide
  rw [← hJoin, ← hWay]
  refine ⟨collectsStray_of_find rfl (fun _ _ => List.not_mem_nil) ⟨".#a", by decide, rfl⟩ rfl rfl,
    ?_⟩
  exact collectsStray_of_find (find_wayHere (by decide)) (fun _ _ => List.not_mem_nil)
    ⟨"a", by decide, rfl⟩ rfl (by simp [FileNode.isDirectoryAt, hWay, hLong])

end Stackable
