import Stackable.Proofs.Workspace.PathOrder

/-!
# Which source files are found

What is collected for some paths is said without the search that collects it: a file that is named,
or a source file that entries lead to from a directory that is named, none of them left out by the
configuration. The search asks an entry only whether it is a directory, so a stray is taken as well:
an entry with the name of a source file that is neither a file nor seen to be a directory. Paths with
the same components are one path.
-/

set_option autoImplicit false

namespace Stackable

/-- Nothing in the path is left out. -/
def Config.Keeps (c : Config) (path : String) : Prop :=
  ∀ component ∈ Path.components path, component.text ∉ c.excludedNames

/-- The name of a source file: something, and the extension behind it. -/
def Path.HasSourceExtension (name : String) : Prop := ∃ stem, stem ≠ "" ∧ name = stem ++ ".cs"

/-- It is seen to be a directory when a path leads to it. -/
def FileNode.isDirectoryAt (path : String) : FileNode → Bool
  | .directory _ | .locked _ => !Path.isTooLong path
  | _ => false

/-- If it is seen to be a directory, then its entries can be listed. -/
def FileNode.Listable (path : String) (node : FileNode) : Prop :=
  ∀ reason, node = .locked reason → Path.isTooLong path = true

def Workspace.isDirectory (w : Workspace) (path : String) : Bool :=
  match w.find path with
  | .ok (.directory _) | .ok (.locked _) => true
  | _ => false

theorem FileNode.isDirectoryAt_of_isFile {path : String} {node : FileNode}
    (h : node.isFile = true) : node.isDirectoryAt path = false := by
  cases node <;> first | rfl | cases h

theorem Config.isExcluded_eq_false_iff {c : Config} {path : String} :
    c.isExcluded path = false ↔ c.Keeps path := by
  simp only [Config.isExcluded, Config.Keeps, List.any_eq_false, List.contains_iff_mem]

theorem Path.isSourceName_iff {name : String} :
    Path.isSourceName name = true ↔ Path.HasSourceExtension name := by
  have hReverse : ∀ stem : List Char, name.toList.reverse = 's' :: 'c' :: '.' :: stem ↔
      name = String.ofList stem.reverse ++ ".cs" := by
    intro stem
    rw [List.reverse_eq_iff, ← String.toList_inj, String.toList_append, String.toList_ofList,
      List.reverse_cons, List.reverse_cons, List.reverse_cons, List.append_assoc, List.append_assoc]
    rfl
  constructor
  · intro h
    unfold Path.isSourceName at h
    split at h
    · next x stem hName =>
      refine ⟨String.ofList (x :: stem).reverse, fun hEmpty => ?_, (hReverse _).mp hName⟩
      have hNil := congrArg String.toList hEmpty
      simp at hNil
    · cases h
  · rintro ⟨stem, hStem, rfl⟩
    obtain ⟨x, rest, hRest⟩ : ∃ x rest, stem.toList.reverse = x :: rest :=
      List.exists_cons_of_ne_nil fun hNil => hStem (by simpa using hNil)
    simp [Path.isSourceName, hRest]

namespace Sources

/-- Entries that are kept lead from a directory at a path to a node: its path, its name and the
node itself. -/
inductive Under (c : Config) :
    String → List (String × FileNode) → String → String → FileNode → Prop where
  | entry {path name : String} {entries : List (String × FileNode)} {node : FileNode} :
      (name, node) ∈ entries → c.Keeps (Path.join path name) →
      Under c path entries (Path.join path name) name node
  | deeper {path name q last : String} {entries inner : List (String × FileNode)} {node : FileNode} :
      (name, .directory inner) ∈ entries → c.Keeps (Path.join path name) →
      Path.isTooLong (Path.join path name) = false →
      Under c (Path.join path name) inner q last node → Under c path entries q last node

/-- An entry below a directory with the name of a source file, that is no directory. -/
def TakenBelow (c : Config) (path : String) (entries : List (String × FileNode)) (q : String) :
    Prop :=
  ∃ name node, Under c path entries q name node ∧ node.isDirectoryAt q = false ∧
    Path.HasSourceExtension name

/-- A source file that a path stands for: the file it names, or one below the directory it names. -/
inductive IsSource (w : Workspace) (c : Config) (path : String) : String → Prop where
  | named : w.isFile path = true → IsSource w c path path
  | below {q name : String} {entries : List (String × FileNode)} {node : FileNode} :
      w.find path = .ok (.directory entries) → Under c path entries q name node →
      node.isFile = true → Path.HasSourceExtension name → IsSource w c path q

/-- What has the name of a source file below the directory that a path names, but is neither a file
nor a directory that can be looked up. -/
def IsStray (w : Workspace) (c : Config) (path q : String) : Prop :=
  ∃ entries name node, w.find path = .ok (.directory entries) ∧
    Under c path entries q name node ∧ node.isFile = false ∧ node.isDirectoryAt q = false ∧
    Path.HasSourceExtension name

/-- The path names a file or a directory, and every directory that a search from it enters can be
listed. -/
structure Readable (w : Workspace) (c : Config) (path : String) : Prop where
  exists_node : w.isFile path = true ∨ ∃ entries, w.find path = .ok (.directory entries)
  below : ∀ entries, w.find path = .ok (.directory entries) →
    ∀ q name node, Under c path entries q name node → node.Listable q

theorem under_nil {c : Config} {path q name : String} {node : FileNode} :
    ¬Under c path [] q name node := by
  rintro (⟨hMem, _⟩ | ⟨hMem, _, _, _⟩) <;> exact List.not_mem_nil hMem

theorem under_cons {c : Config} {path name q last : String} {node found : FileNode}
    {rest : List (String × FileNode)} :
    Under c path ((name, node) :: rest) q last found ↔
      (c.Keeps (Path.join path name) ∧
        (q = Path.join path name ∧ last = name ∧ found = node ∨
          Path.isTooLong (Path.join path name) = false ∧
            ∃ inner, node = .directory inner ∧ Under c (Path.join path name) inner q last found)) ∨
      Under c path rest q last found := by
  constructor
  · rintro (⟨hMem, hKeeps⟩ | ⟨hMem, hKeeps, hShort, hUnder⟩)
    · rcases List.mem_cons.mp hMem with hEq | hMem
      · obtain ⟨rfl, rfl⟩ := Prod.mk.inj hEq
        exact .inl ⟨hKeeps, .inl ⟨rfl, rfl, rfl⟩⟩
      · exact .inr (.entry hMem hKeeps)
    · rcases List.mem_cons.mp hMem with hEq | hMem
      · obtain ⟨rfl, rfl⟩ := Prod.mk.inj hEq
        exact .inl ⟨hKeeps, .inr ⟨hShort, _, rfl, hUnder⟩⟩
      · exact .inr (.deeper hMem hKeeps hShort hUnder)
  · rintro (⟨hKeeps, ⟨rfl, rfl, rfl⟩ | ⟨hShort, inner, rfl, hUnder⟩⟩ | hUnder)
    · exact .entry List.mem_cons_self hKeeps
    · exact .deeper List.mem_cons_self hKeeps hShort hUnder
    · cases hUnder with
      | entry hMem hKeeps => exact .entry (List.mem_cons_of_mem _ hMem) hKeeps
      | deeper hMem hKeeps hShort hUnder =>
        exact .deeper (List.mem_cons_of_mem _ hMem) hKeeps hShort hUnder

theorem takenBelow_cons {c : Config} {path name q : String} {node : FileNode}
    {rest : List (String × FileNode)} :
    TakenBelow c path ((name, node) :: rest) q ↔
      (c.Keeps (Path.join path name) ∧
        (q = Path.join path name ∧ node.isDirectoryAt q = false ∧ Path.HasSourceExtension name ∨
          Path.isTooLong (Path.join path name) = false ∧
            ∃ inner, node = .directory inner ∧ TakenBelow c (Path.join path name) inner q)) ∨
      TakenBelow c path rest q := by
  simp only [TakenBelow, under_cons]
  constructor
  · rintro ⟨last, found, ⟨hKeeps, ⟨rfl, rfl, rfl⟩ | ⟨hShort, inner, rfl, hUnder⟩⟩ | hUnder, hTaken⟩
    · exact .inl ⟨hKeeps, .inl ⟨rfl, hTaken⟩⟩
    · exact .inl ⟨hKeeps, .inr ⟨hShort, inner, rfl, last, found, hUnder, hTaken⟩⟩
    · exact .inr ⟨last, found, hUnder, hTaken⟩
  · rintro (⟨hKeeps, ⟨rfl, hTaken⟩ | ⟨hShort, inner, rfl, last, found, hUnder, hTaken⟩⟩ |
      ⟨last, found, hUnder, hTaken⟩)
    · exact ⟨name, node, .inl ⟨hKeeps, .inl ⟨rfl, rfl, rfl⟩⟩, hTaken⟩
    · exact ⟨last, found, .inl ⟨hKeeps, .inr ⟨hShort, inner, rfl, hUnder⟩⟩, hTaken⟩
    · exact ⟨last, found, .inr hUnder, hTaken⟩

variable {c : Config}

theorem mem_byName {path name q : String} :
    q ∈ byName path name ↔ q = path ∧ Path.HasSourceExtension name := by
  rw [byName, ← Path.isSourceName_iff]
  cases Path.isSourceName name <;> simp

mutual

theorem below_spec (path name : String) : ∀ node : FileNode, node.Listable path →
    (∀ inner, node = .directory inner → Path.isTooLong path = false →
      ∀ q last found, Under c path inner q last found → found.Listable q) →
    ∃ files, below c path name node = .ok files ∧
      ∀ q, q ∈ files ↔
        q = path ∧ node.isDirectoryAt q = false ∧ Path.HasSourceExtension name ∨
          Path.isTooLong path = false ∧ ∃ inner, node = .directory inner ∧ TakenBelow c path inner q
  | .file _, _, _ | .unreadable _, _, _ | .special _, _, _ | .broken _, _, _ =>
    ⟨_, rfl, fun q => by simp [mem_byName, FileNode.isDirectoryAt]⟩
  | .directory entries, _, hInner => by
    simp only [below]
    split
    · next hLong => exact ⟨_, rfl, fun q => by
        rw [mem_byName]
        grind [FileNode.isDirectoryAt]⟩
    · next hShort =>
      rw [Bool.not_eq_true] at hShort
      obtain ⟨files, hFiles, hMem⟩ := belowEntries_spec path entries (hInner entries rfl hShort)
      refine ⟨files, hFiles, fun q => ?_⟩
      rw [hMem]
      grind [FileNode.isDirectoryAt]
  | .locked reason, hListable, _ => by
    have hLong : Path.isTooLong path = true := hListable reason rfl
    refine ⟨byName path name, by rw [below, if_pos hLong], fun q => ?_⟩
    rw [mem_byName]
    grind [FileNode.isDirectoryAt]

/-- Below a directory the search finds what the entries lead to. -/
theorem belowEntries_spec (path : String) : ∀ entries : List (String × FileNode),
    (∀ q name node, Under c path entries q name node → node.Listable q) →
    ∃ files, belowEntries c path entries = .ok files ∧ ∀ q, q ∈ files ↔ TakenBelow c path entries q
  | [], _ => ⟨[], rfl, fun q => by simp [TakenBelow, under_nil]⟩
  | (name, node) :: rest, h => by
    obtain ⟨files, hFiles, hMem⟩ := belowEntries_spec path rest fun q last found hUnder =>
      h q last found (under_cons.mpr (.inr hUnder))
    rw [belowEntries]
    split
    · next hExcluded =>
      have hLeft : ¬c.Keeps (Path.join path name) := fun hKeeps => by
        rw [Config.isExcluded_eq_false_iff.mpr hKeeps] at hExcluded
        cases hExcluded
      refine ⟨files, hFiles, fun q => ?_⟩
      rw [hMem, takenBelow_cons]
      simp only [hLeft, false_and, false_or]
    · next hExcluded =>
      have hKeeps : c.Keeps (Path.join path name) :=
        Config.isExcluded_eq_false_iff.mp (Bool.eq_false_iff.mpr hExcluded)
      obtain ⟨first, hFirst, hMemFirst⟩ := below_spec (Path.join path name) name node
        (h _ _ _ (.entry List.mem_cons_self hKeeps)) fun inner hNode hShort q last found hUnder =>
          h q last found (under_cons.mpr (.inl ⟨hKeeps, .inr ⟨hShort, inner, hNode, hUnder⟩⟩))
      refine ⟨first ++ files, by rw [hFirst, hFiles]; rfl, fun q => ?_⟩
      rw [List.mem_append, hMemFirst, hMem, takenBelow_cons]
      simp only [hKeeps, true_and]

end

variable {w : Workspace}

/-- A file is no directory, so that what is taken is a source file or a stray. -/
theorem isSource_or_isStray_iff {path q : String} :
    IsSource w c path q ∨ IsStray w c path q ↔
      w.isFile path = true ∧ q = path ∨
        ∃ entries, w.find path = .ok (.directory entries) ∧ TakenBelow c path entries q := by
  constructor
  · rintro ((hFile | ⟨hNode, hUnder, hFile, hName⟩) | ⟨entries, name, node, hNode, hUnder, -, hTaken⟩)
    · exact .inl ⟨hFile, rfl⟩
    · exact .inr ⟨_, hNode, _, _, hUnder, FileNode.isDirectoryAt_of_isFile hFile, hName⟩
    · exact .inr ⟨entries, hNode, name, node, hUnder, hTaken⟩
  · rintro (⟨hFile, rfl⟩ | ⟨entries, hNode, name, node, hUnder, hTaken, hName⟩)
    · exact .inl (.named hFile)
    · cases hFile : node.isFile with
      | true => exact .inl (.below hNode hUnder hFile hName)
      | false => exact .inr ⟨entries, name, node, hNode, hUnder, hFile, hTaken, hName⟩

theorem named_of_isFile {path : String} (h : w.isFile path = true) : named w c path = .ok [path] := by
  rw [named]
  unfold Workspace.isFile at h
  split at h
  · next node hNode =>
    rw [hNode]
    cases node <;> first | rfl | cases h
  · cases h

theorem named_spec {path : String} (h : Readable w c path) :
    ∃ files, named w c path = .ok files ∧
      ∀ q, q ∈ files ↔ IsSource w c path q ∨ IsStray w c path q := by
  simp only [isSource_or_isStray_iff]
  rcases h.exists_node with hFile | ⟨entries, hNode⟩
  · have hNone : ∀ entries, w.find path ≠ .ok (.directory entries) := fun entries hNode => by
      simp [Workspace.isFile, hNode, FileNode.isFile] at hFile
    refine ⟨[path], named_of_isFile hFile, fun q => ?_⟩
    simp [hFile, hNone]
  · obtain ⟨files, hFiles, hMem⟩ := belowEntries_spec path entries (h.below entries hNode)
    refine ⟨files, by rw [named, hNode]; exact hFiles, fun q => ?_⟩
    rw [hMem]
    simp [Workspace.isFile, hNode, FileNode.isFile]

theorem mapM_named_spec : ∀ paths : List String, (∀ p ∈ paths, Readable w c p) →
    ∃ lists, paths.mapM (named w c) = .ok lists ∧
      ∀ q, q ∈ lists.flatten ↔ ∃ p ∈ paths, IsSource w c p q ∨ IsStray w c p q
  | [], _ => ⟨[], rfl, fun q => by simp⟩
  | path :: paths, h => by
    obtain ⟨first, hFirst, hMemFirst⟩ := named_spec (h path List.mem_cons_self)
    obtain ⟨lists, hLists, hMem⟩ :=
      mapM_named_spec paths fun p hp => h p (List.mem_cons_of_mem _ hp)
    refine ⟨first :: lists, by rw [List.mapM_cons, hFirst, hLists]; rfl, fun q => ?_⟩
    simp only [List.flatten_cons, List.mem_append, hMemFirst, hMem, List.mem_cons, exists_eq_or_imp]

theorem named_eq_error {path : String} (hFile : w.isFile path = false)
    (hDirectory : w.isDirectory path = false) : named w c path = .error (.notFound path) := by
  rw [named]
  unfold Workspace.isFile at hFile
  unfold Workspace.isDirectory at hDirectory
  cases hNode : w.find path with
  | error e => rfl
  | ok node =>
    cases node with
    | special _ | broken _ => rfl
    | file _ | unreadable _ => simp [hNode, FileNode.isFile] at hFile
    | directory _ | locked _ => simp [hNode] at hDirectory

/-- The first path that cannot be searched ends everything. -/
theorem collect_eq_error {paths : List String} (h : ∃ p ∈ paths, ∃ e, named w c p = .error e) :
    ∃ e, collect w c paths = .error e := by
  obtain ⟨p, hMem, hError⟩ := h
  suffices hAll : ∃ e, paths.mapM (named w c) = .error e by
    obtain ⟨e, hAll⟩ := hAll
    exact ⟨e, by rw [collect, hAll]; rfl⟩
  induction paths with
  | nil => exact absurd hMem List.not_mem_nil
  | cons path paths ih =>
    rw [List.mapM_cons]
    cases hFirst : named w c path with
    | error e => exact ⟨e, rfl⟩
    | ok first =>
      rcases List.mem_cons.mp hMem with rfl | hMem
      · obtain ⟨e, hError⟩ := hError
        rw [hFirst] at hError
        cases hError
      · obtain ⟨e, hRest⟩ := ih hMem
        exact ⟨e, by rw [hRest]; rfl⟩

/-- What is collected ascends strictly, and holds the source files of the paths and the strays. -/
theorem collect_spec {paths : List String} (h : ∀ p ∈ paths, Readable w c p) :
    ∃ files, collect w c paths = .ok files ∧ files.Pairwise Path.Before ∧
      (∀ q ∈ files, ∃ p ∈ paths, IsSource w c p q ∨ IsStray w c p q) ∧
      ∀ p ∈ paths, ∀ q, IsSource w c p q ∨ IsStray w c p q →
        ∃ f ∈ files, Path.components f = Path.components q := by
  obtain ⟨lists, hLists, hMem⟩ := mapM_named_spec paths h
  refine ⟨arrange lists.flatten, by rw [collect, hLists]; rfl, pairwise_arrange, fun q hq => ?_,
    fun p hp q hq => exists_mem_arrange ((hMem q).mpr ⟨p, hp, hq⟩)⟩
  exact (hMem q).mp (mem_of_mem_arrange hq)

end Sources

end Stackable
