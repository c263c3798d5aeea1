import Stackable.Proofs.Parser.Numbering
import Stackable.Proofs.Symbol.Declarations

/-!
# The symbol table

The table of a unit with distinct numbers has one symbol for each declaration, in the order of the
walk. Its numbers, its owners and members, and the look-ups by node and by name all agree with the
tree.
-/

set_option autoImplicit false

namespace Stackable

namespace SymbolTable

/-- The symbol `owner` is the nearest type around a declaration. -/
def Owns (t : SymbolTable) (owner : SymbolId) (d : Declaration) : Prop :=
  ∃ s, t.get? owner = some s ∧ s.isType = true ∧ d.owner? = some s.node

/-- What a symbol says of the declaration `d` beyond its name. The members of a type are the
symbols of the fields, methods, constructors and types that are directly inside it, in order. -/
def FitsKind (t : SymbolTable) (all : List Declaration) (d : Declaration) : SymbolKind → Prop
  | .type kind members => d.kind = .type kind ∧
    members.map t.get? = (all.filter (·.owner? == some d.node)).map fun m => t.byNode? m.node
  | .field owner isConst => d.kind = .field isConst ∧ t.Owns owner d
  | .method owner isAsync => d.kind = .method isAsync ∧ t.Owns owner d
  | .constructor owner => d.kind = .constructor ∧ t.Owns owner d

structure Records (t : SymbolTable) (all : List Declaration) (s : Symbol) (d : Declaration) :
    Prop where
  node : s.node = d.node
  name : s.name = d.name
  span : s.span = d.nameSpan
  qualifiedName : s.qualifiedName = String.intercalate "." (scopeOf d.around ++ [d.name])
  kind : t.FitsKind all d s.kind

/-- The symbols of a table are those of the declarations `all`. -/
structure Lists (t : SymbolTable) (all : List Declaration) : Prop where
  /-- There is one symbol for each declaration, in the same order. -/
  symbols : List.Forall₂ (t.Records all) t.symbols all
  id_eq : ∀ {i s}, t.get? i = some s → s.id = i
  byNode?_node : ∀ s ∈ t.symbols, t.byNode? s.node = some s
  byNode?_eq_none : ∀ node, (∀ d ∈ all, d.node ≠ node) → t.byNode? node = none
  typesNamed : ∀ name, (t.typesNamed name).map some =
    (all.filter fun d => d.isType && d.name == name).map fun d => t.byNode? d.node

end SymbolTable

theorem Node.typeDecl?_of_member_child {n : Node} {m : Member} (h : .member m ∈ n.children) :
    n.typeDecl?.isSome := by
  cases n with
  | decl d =>
    obtain ⟨id, kind, span⟩ := d
    cases kind with
    | usingDecl _ => cases h
    | namespaceDecl n =>
      obtain ⟨d, _, hd⟩ := List.mem_map.mp h
      cases hd
    | typeDecl t => rfl
  | member outer =>
    rw [Option.isSome_iff_ne_none]
    intro hType
    cases Member.isPart_of_mem_children hType h
  | declarator _ | accessor _ | stmt _ | expr _ => cases Node.isPart_of_mem_children rfl h

theorem Lineage.exists_type {unit : CompilationUnit} {m : Member} {around : List Node}
    (h : Lineage unit (.member m) around) :
    ∃ t outer, around = t :: outer ∧ t.typeDecl?.isSome := by
  cases h with
  | child h hc => exact ⟨_, _, rfl, Node.typeDecl?_of_member_child hc⟩

theorem Node.exists_member_of_field? {n : Node} {f : FieldDecl} (h : n.field? = some f) :
    n.typeDecl? = none ∧ ∃ m, n = .member m := by
  unfold field? at h
  split at h
  next => exact ⟨rfl, _, rfl⟩
  next => cases h

section Owner

variable {unit : CompilationUnit} {d : Declaration}

/-- The way to what is declared inside a type. -/
theorem Lineage.exists_nearest {x : Node} {around : List Node} (h : Lineage unit x around)
    (hd : Entry.declaration? ⟨x, around⟩ = some d) (hKind : d.isType = false) :
    ∃ inner t outer, around = inner ++ t :: outer ∧ (∀ n ∈ inner, n.typeDecl? = none) ∧
      t.typeDecl?.isSome := by
  cases x with
  | decl decl =>
    obtain ⟨id, kind, span⟩ := decl
    cases kind with
    | usingDecl _ | namespaceDecl _ => cases hd
    | typeDecl _ =>
      cases hd
      cases hKind
  | member m =>
    obtain ⟨t, outer, hAround, hType⟩ := h.exists_type
    exact ⟨[], t, outer, hAround, fun _ hn => absurd hn List.not_mem_nil, hType⟩
  | declarator c =>
    obtain ⟨f, hField, _⟩ := Option.map_eq_some_iff.mp hd
    obtain ⟨p, hHead, hField⟩ := Option.bind_eq_some_iff.mp hField
    obtain ⟨rest, rfl⟩ := List.head?_eq_some_iff.mp hHead
    obtain ⟨hNone, m, rfl⟩ := Node.exists_member_of_field? hField
    obtain ⟨t, outer, rfl, hType⟩ := h.parent.1.exists_type
    exact ⟨[.member m], t, outer, rfl, by simpa using hNone, hType⟩
  | accessor _ | stmt _ | expr _ => cases hd

/-- Fields, methods and constructors are inside a type. -/
theorem exists_owner (hu : unit.Numbered) (hd : d ∈ (SyntaxTree.ofUnit unit).declarations)
    (hKind : d.isType = false) :
    ∃ t ∈ (SyntaxTree.ofUnit unit).declarations, t.isType = true ∧ d.owner? = some t.node := by
  rw [SyntaxTree.declarations, SyntaxTree.entries_ofUnit hu] at hd ⊢
  obtain ⟨⟨x, around⟩, he, hd⟩ := List.mem_filterMap.mp hd
  have hx := Lineage.mem_entries_iff.mp he
  obtain ⟨inner, t, outer, rfl, hInner, hType⟩ := hx.exists_nearest hd hKind
  obtain ⟨decl, hDecl⟩ := Option.isSome_iff_exists.mp hType
  refine ⟨_, List.mem_filterMap.mpr ⟨_, Lineage.mem_entries_iff.mpr hx.outward.1,
    Entry.declaration?_of_typeDecl? hDecl outer⟩, rfl, ?_⟩
  rw [Declaration.owner?, (Entry.of_declaration? hd).2.1, nearestType?_append hInner,
    nearestType?_cons hType]

end Owner

namespace SymbolTable

variable {t : SymbolTable} {all : List Declaration} {d : Declaration}

section

variable (hIndexed : t.Indexed) (hSymbols : t.symbols = all.map (·.symbol all))
  (hNodup : (all.map (·.node)).Nodup)

include hSymbols

theorem exists_of_get? {i : SymbolId} {s : Symbol} (h : t.get? i = some s) :
    ∃ hi : i < all.length, s = all[i].symbol all := by
  rw [get?, hSymbols, List.getElem?_map] at h
  obtain ⟨d, hd, rfl⟩ := Option.map_eq_some_iff.mp h
  obtain ⟨hi, rfl⟩ := List.getElem?_eq_some_iff.mp hd
  exact ⟨hi, rfl⟩

include hNodup

theorem get?_placeOf (hd : d ∈ all) : t.get? (placeOf all d.node) = some (d.symbol all) := by
  obtain ⟨i, hi, rfl⟩ := List.mem_iff_getElem.mp hd
  rw [placeOf_getElem hNodup hi, get?, hSymbols, List.getElem?_map, List.getElem?_eq_getElem hi,
    Option.map_some]

include hIndexed

omit hNodup in
theorem byNode?_of_forall_ne {node : NodeId} (h : ∀ d ∈ all, d.node ≠ node) :
    t.byNode? node = none := by
  rw [hIndexed.byNode?_eq, hSymbols]
  apply List.find?_eq_none.mpr
  intro s hs hNode
  obtain ⟨d, hd, rfl⟩ := List.mem_map.mp (List.mem_reverse.mp hs)
  exact h d hd (beq_iff_eq.mp hNode)

theorem byNode?_of_mem (hd : d ∈ all) : t.byNode? d.node = some (d.symbol all) := by
  have hSome : (t.byNode? d.node).isSome := by
    rw [hIndexed.byNode?_eq, hSymbols, List.find?_isSome]
    exact ⟨_, List.mem_reverse.mpr (List.mem_map_of_mem hd), beq_self_eq_true d.node⟩
  obtain ⟨s, hs⟩ := Option.isSome_iff_exists.mp hSome
  have hFind := hs
  rw [hIndexed.byNode?_eq] at hFind
  have hNode : s.node = d.node := by simpa using List.find?_some hFind
  have hMem := List.mem_reverse.mp (List.mem_of_find?_eq_some hFind)
  rw [hSymbols] at hMem
  obtain ⟨d', hd', rfl⟩ := List.mem_map.mp hMem
  rw [hs, List.inj_on_of_nodup_map hNodup hd' hd hNode]

theorem map_byNode? {l : List Declaration} (hl : ∀ d ∈ l, d ∈ all) :
    (l.map fun d => t.byNode? d.node) = l.map fun d => some (d.symbol all) :=
  List.map_congr_left fun d hd => byNode?_of_mem hIndexed hSymbols hNodup (hl d hd)

/-- The symbol of a declaration says of it what stands in the tree. -/
theorem records_symbol (hOwner : ∀ d ∈ all, d.isType = false →
      ∃ o ∈ all, o.isType = true ∧ d.owner? = some o.node) (hd : d ∈ all) :
    t.Records all (d.symbol all) d := by
  refine ⟨rfl, rfl, rfl, rfl, ?_⟩
  have owns (hKind : d.isType = false) : t.Owns (d.ownerPlace all) d := by
    obtain ⟨o, ho, hType, hNode⟩ := hOwner d hd hKind
    refine ⟨o.symbol all, ?_, (Declaration.isType_symbol all o).trans hType, hNode⟩
    rw [d.ownerPlace_eq hNode]
    exact get?_placeOf hSymbols hNodup ho
  unfold Declaration.symbol
  cases hKind : d.kind with
  | type kind =>
    refine ⟨hKind, ?_⟩
    rw [map_byNode? hIndexed hSymbols hNodup fun m hm => List.mem_of_mem_filter hm, Declaration.memberPlaces,
      List.map_map]
    exact List.map_congr_left fun m hm => get?_placeOf hSymbols hNodup (List.mem_of_mem_filter hm)
  | field isConst | method isAsync | constructor =>
    refine ⟨hKind, owns ?_⟩
    rw [Declaration.isType, hKind]

theorem map_typesNamed (name : String) : (t.typesNamed name).map some =
    (all.filter fun d => d.isType && d.name == name).map fun d => t.byNode? d.node := by
  rw [map_byNode? hIndexed hSymbols hNodup fun m hm => List.mem_of_mem_filter hm,
    hIndexed.typesNamed_eq, hSymbols,
    List.filter_map, List.map_map]
  congr 2
  funext d
  simp only [Function.comp, Declaration.isType_symbol]
  rfl

end

end SymbolTable

/-- The symbol table lists the declarations of the tree. -/
theorem table_lists_declarations (unit : CompilationUnit) (hu : unit.Numbered) :
    (SymbolTable.ofUnit unit).Lists (SyntaxTree.ofUnit unit).declarations := by
  have hIndexed := SymbolTable.indexed_ofUnit unit
  have hSymbols := symbols_ofUnit hu
  have hNodup := nodup_declarations hu
  refine ⟨?_, ?_, ?_, ?_, ?_⟩
  · rw [hSymbols, List.forall₂_map_left_iff, List.forall₂_same]
    exact fun d hd => SymbolTable.records_symbol hIndexed hSymbols hNodup (fun _ => exists_owner hu) hd
  · intro i s h
    obtain ⟨hi, rfl⟩ := SymbolTable.exists_of_get? hSymbols h
    exact placeOf_getElem hNodup hi
  · intro s hs
    rw [hSymbols] at hs
    obtain ⟨d, hd, rfl⟩ := List.mem_map.mp hs
    exact SymbolTable.byNode?_of_mem hIndexed hSymbols hNodup hd
  · exact fun node h => SymbolTable.byNode?_of_forall_ne hIndexed hSymbols h
  · exact fun name => SymbolTable.map_typesNamed hIndexed hSymbols hNodup name

/-- A type with a nested type between its members. -/
def nestedBetween : List Char :=
  "namespace N.M{class A{int x,y;class B{async void F(){int z;}}A(){}}}".toList

set_option maxRecDepth 10000 in
theorem table_lists_nestedBetween : (parseSource nestedBetween).2 = [] ∧
    (parseSource nestedBetween).1.Numbered ∧
    (SymbolTable.ofUnit (parseSource nestedBetween).1).Lists
      (SyntaxTree.ofUnit (parseSource nestedBetween).1).declarations ∧
    (SymbolTable.ofUnit (parseSource nestedBetween).1).symbols.map
        (fun s => (s.qualifiedName, s.kind)) =
      [("N.M.A", .type .classType [1, 2, 3, 5]), ("N.M.A.x", .field 0 false),
        ("N.M.A.y", .field 0 false), ("N.M.A.B", .type .classType [4]),
        ("N.M.A.B.F", .method 3 true), ("N.M.A.A", .constructor 0)] :=
  ⟨by decide +kernel, numbered_parseSource nestedBetween,
    table_lists_declarations _ (numbered_parseSource nestedBetween), by decide +kernel⟩

end Stackable
