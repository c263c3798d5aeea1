import Stackable.Proofs.Table
import Stackable.Symbol.Table

/-!
# What is collected

The symbols of a unit by recursion over its syntax, without the table: each part starts at a number
and lists its symbols. Collecting adds these to the table one by one, and keeps the indexes of the
table in step with its symbols.
-/

set_option autoImplicit false

namespace Stackable

/-- Symbols with the numbers of those that belong to the type at hand. -/
structure Collected where
  symbols : List Symbol
  direct : List SymbolId

def Collected.append (a b : Collected) : Collected :=
  ⟨a.symbols ++ b.symbols, a.direct ++ b.direct⟩

/-- The declarators of a field, numbered from `next`. -/
def declaratorSymbols (owner : SymbolId) (qualified : String) (isConst : Bool) (next : SymbolId) :
    List Declarator → Collected
  | [] => ⟨[], []⟩
  | d :: ds =>
    Collected.append
      ⟨[⟨next, d.name, qualified ++ "." ++ d.name, .field owner isConst, d.id, d.nameSpan⟩], [next]⟩
      (declaratorSymbols owner qualified isConst (next + 1) ds)

mutual

/-- The symbols of a member of `owner`, numbered from `next`; `path` leads to the owner. -/
def Member.symbols (owner : SymbolId) (path : List String) (next : SymbolId) : Member → Collected
  | ⟨_, .field d, _⟩ =>
    declaratorSymbols owner (String.intercalate "." path) (d.modifiers.contains .constMod) next
      d.declarators
  | ⟨id, .method d, _⟩ =>
    ⟨[⟨next, d.name, String.intercalate "." path ++ "." ++ d.name,
      .method owner (d.modifiers.contains .asyncMod), id, d.nameSpan⟩], [next]⟩
  | ⟨id, .constructor d, _⟩ =>
    ⟨[⟨next, d.name, String.intercalate "." path ++ "." ++ d.name, .constructor owner, id,
      d.nameSpan⟩], [next]⟩
  | ⟨id, .typeDecl ⟨kind, name, nameSpan, _, _, _, members⟩, _⟩ =>
    let path := path ++ [name]
    let inner := memberSymbols next path (next + 1) members
    ⟨⟨next, name, String.intercalate "." path, .type kind inner.direct, id, nameSpan⟩ ::
      inner.symbols, [next]⟩
  | ⟨_, .property _, _⟩ | ⟨_, .enumMember _, _⟩ => ⟨[], []⟩

def memberSymbols (owner : SymbolId) (path : List String) (next : SymbolId) :
    List Member → Collected
  | [] => ⟨[], []⟩
  | m :: ms =>
    let first := m.symbols owner path next
    first.append (memberSymbols owner path (next + first.symbols.length) ms)

end

mutual

/-- The symbols of a declaration inside the namespaces `path`, numbered from `next`. -/
def Decl.symbols (path : List String) (next : SymbolId) : Decl → List Symbol
  | ⟨_, .usingDecl _, _⟩ => []
  | ⟨_, .namespaceDecl ⟨name, decls, _⟩, _⟩ => declSymbols (path ++ name) next decls
  | ⟨id, .typeDecl t, span⟩ => ((⟨id, .typeDecl t, span⟩ : Member).symbols next path next).symbols

def declSymbols (path : List String) (next : SymbolId) : List Decl → List Symbol
  | [] => []
  | d :: ds =>
    let first := d.symbols path next
    first ++ declSymbols path (next + first.length) ds

end

theorem modify_append_of_lt {α : Type} {l : List α} (r : List α) {i : Nat} (h : i < l.length)
    (f : α → α) : (l ++ r).modify i f = l.modify i f ++ r := by
  induction l generalizing i with
  | nil => exact absurd h (Nat.not_lt_zero i)
  | cons a l ih =>
    cases i with
    | zero => rfl
    | succ i => exact congrArg (a :: ·) (ih (Nat.lt_of_succ_lt_succ h))

theorem modify_append_length {α : Type} (l : List α) (a : α) (f : α → α) :
    (l ++ [a]).modify l.length f = l ++ [f a] := by
  induction l with
  | nil => rfl
  | cons b l ih => exact congrArg (b :: ·) ih

namespace SymbolTable

def extend (t : SymbolTable) (l : List Symbol) : SymbolTable := l.foldl push t

theorem extend_append (t : SymbolTable) (a b : List Symbol) :
    t.extend (a ++ b) = (t.extend a).extend b :=
  List.foldl_append

@[simp] theorem size_push (t : SymbolTable) (s : Symbol) : (t.push s).size = t.size + 1 :=
  List.length_append

theorem symbols_extend (t : SymbolTable) (l : List Symbol) :
    (t.extend l).symbols = t.symbols ++ l := by
  induction l generalizing t with
  | nil => exact (List.append_nil _).symm
  | cons s l ih =>
    change ((t.push s).extend l).symbols = _
    rw [ih, push, List.append_assoc]
    rfl

theorem size_extend (t : SymbolTable) (l : List Symbol) :
    (t.extend l).size = t.size + l.length := by
  rw [size, symbols_extend, List.length_append]
  rfl

theorem size_setMembers (t : SymbolTable) (id : SymbolId) (members : List SymbolId) :
    (t.setMembers id members).size = t.size :=
  List.length_modify _ _ _

theorem setMembers_push (t : SymbolTable) (s : Symbol) {id : SymbolId} (h : id < t.size)
    (members : List SymbolId) :
    (t.push s).setMembers id members = (t.setMembers id members).push s := by
  have hSize := t.size_setMembers id members
  simp only [push, hSize]
  simp only [setMembers, SymbolTable.mk.injEq, and_true]
  exact modify_append_of_lt [s] h _

/-- A type learns its members in the same way in front of and behind further symbols. -/
theorem setMembers_extend (t : SymbolTable) (l : List Symbol) {id : SymbolId} (h : id < t.size)
    (members : List SymbolId) :
    (t.extend l).setMembers id members = (t.setMembers id members).extend l := by
  induction l generalizing t with
  | nil => rfl
  | cons s l ih =>
    have hLater : id < (t.push s).size := (size_push t s).symm ▸ Nat.lt_succ_of_lt h
    change ((t.push s).extend l).setMembers id members = ((t.setMembers id members).push s).extend l
    rw [ih _ hLater, setMembers_push t s h]

theorem setMembers_push_self (t : SymbolTable) (name qualifiedName : String) (kind : TypeKind)
    (node : NodeId) (span : Span) (members : List SymbolId) :
    (t.push ⟨t.size, name, qualifiedName, .type kind [], node, span⟩).setMembers t.size members =
      t.push ⟨t.size, name, qualifiedName, .type kind members, node, span⟩ :=
  congrArg (SymbolTable.mk · _ _) (modify_append_length t.symbols _ _)

end SymbolTable

theorem collectDeclarators_eq (owner : SymbolId) (qualified : String) (isConst : Bool)
    (ds : List Declarator) (t : SymbolTable) :
    collectDeclarators owner qualified isConst ds t =
      ((declaratorSymbols owner qualified isConst t.size ds).direct,
        t.extend (declaratorSymbols owner qualified isConst t.size ds).symbols) := by
  induction ds generalizing t with
  | nil => rfl
  | cons d ds ih =>
    let s : Symbol :=
      ⟨t.size, d.name, qualified ++ "." ++ d.name, .field owner isConst, d.id, d.nameSpan⟩
    have hRest := ih (t.push s)
    rw [SymbolTable.size_push] at hRest
    change (let r := collectDeclarators owner qualified isConst ds (t.push s);
      (t.size :: r.1, r.2)) = _
    rw [hRest]
    rfl

mutual

/-- A member adds its symbols to the table. -/
theorem Member.collect_eq (owner : SymbolId) (path : List String) (t : SymbolTable) : (m : Member) →
    m.collect owner path t =
      ((m.symbols owner path t.size).direct, t.extend (m.symbols owner path t.size).symbols)
  | ⟨_, .field d, _⟩ => collectDeclarators_eq owner _ _ d.declarators t
  | ⟨_, .method _, _⟩ => rfl
  | ⟨_, .constructor _, _⟩ => rfl
  | ⟨id, .typeDecl ⟨kind, name, nameSpan, _, _, _, members⟩, _⟩ => by
    let qualified := String.intercalate "." (path ++ [name])
    let start := t.push ⟨t.size, name, qualified, .type kind [], id, nameSpan⟩
    let inner := memberSymbols t.size (path ++ [name]) (t.size + 1) members
    have hInner : collectMembers t.size (path ++ [name]) members start =
        (inner.direct, start.extend inner.symbols) := by
      have h := collectMembers_eq t.size (path ++ [name]) start members
      rwa [SymbolTable.size_push] at h
    change (let r := collectMembers t.size (path ++ [name]) members start;
      ([t.size], r.2.setMembers t.size r.1)) = _
    rw [hInner]
    have hOwn : t.size < start.size := by
      rw [SymbolTable.size_push]
      omega
    change ([t.size], (start.extend inner.symbols).setMembers t.size inner.direct) = _
    rw [SymbolTable.setMembers_extend start _ hOwn, SymbolTable.setMembers_push_self]
    rfl
  | ⟨_, .property _, _⟩ | ⟨_, .enumMember _, _⟩ => rfl

theorem collectMembers_eq (owner : SymbolId) (path : List String) (t : SymbolTable) :
    (ms : List Member) → collectMembers owner path ms t =
      ((memberSymbols owner path t.size ms).direct,
        t.extend (memberSymbols owner path t.size ms).symbols)
  | [] => rfl
  | m :: ms => by
    let first := m.symbols owner path t.size
    have hFirst := m.collect_eq owner path t
    have hRest := collectMembers_eq owner path (t.extend first.symbols) ms
    rw [SymbolTable.size_extend] at hRest
    change (let r := m.collect owner path t;
      let r' := collectMembers owner path ms r.2; (r.1 ++ r'.1, r'.2)) = _
    rw [hFirst]
    change (let r' := collectMembers owner path ms (t.extend first.symbols);
      (first.direct ++ r'.1, r'.2)) = _
    rw [hRest, ← SymbolTable.extend_append]
    rfl

end

mutual

theorem Decl.collect_eq (path : List String) (t : SymbolTable) : (d : Decl) →
    d.collect path t = ((), t.extend (d.symbols path t.size))
  | ⟨_, .usingDecl _, _⟩ => rfl
  | ⟨_, .namespaceDecl ⟨name, decls, _⟩, _⟩ => collectDecls_eq (path ++ name) t decls
  | ⟨id, .typeDecl d, span⟩ => by
    have h := (⟨id, .typeDecl d, span⟩ : Member).collect_eq t.size path t
    exact congrArg (fun r => ((), r.2)) h

theorem collectDecls_eq (path : List String) (t : SymbolTable) : (ds : List Decl) →
    collectDecls path ds t = ((), t.extend (declSymbols path t.size ds))
  | [] => rfl
  | d :: ds => by
    have hFirst := d.collect_eq path t
    have hRest := collectDecls_eq path (t.extend (d.symbols path t.size)) ds
    rw [SymbolTable.size_extend] at hRest
    change collectDecls path ds (d.collect path t).2 = _
    rw [hFirst, hRest, ← SymbolTable.extend_append]
    rfl

end

namespace SymbolTable

theorem ofUnit_eq (unit : CompilationUnit) :
    ofUnit unit = empty.extend (declSymbols [] 0 unit.decls) :=
  congrArg Prod.snd (collectDecls_eq [] empty unit.decls)

/-- Both indexes say what a walk of the symbols would find. -/
structure Indexed (t : SymbolTable) : Prop where
  node_lt : ∀ {node id}, t.nodes.get? node = some id → id < t.size
  type_lt : ∀ name, ∀ id ∈ (t.types.get? name).getD [], id < t.size
  byNode?_eq : ∀ node, t.byNode? node = t.symbols.reverse.find? (·.node == node)
  typesNamed_eq : ∀ name, t.typesNamed name = t.symbols.filter fun s => s.isType && s.name == name

theorem indexed_empty : empty.Indexed where
  node_lt h := nomatch h
  type_lt _ _ h := nomatch h
  byNode?_eq _ := rfl
  typesNamed_eq _ := rfl

theorem get?_push_of_lt (t : SymbolTable) (s : Symbol) {id : SymbolId} (h : id < t.size) :
    (t.push s).get? id = t.get? id :=
  List.getElem?_append_left h

theorem get?_push_size (t : SymbolTable) (s : Symbol) : (t.push s).get? t.size = some s :=
  List.getElem?_concat_length

theorem types_push (t : SymbolTable) (s : Symbol) (name : String) :
    ((t.push s).types.get? name).getD [] =
      (t.types.get? name).getD [] ++ if s.isType && s.name == name then [t.size] else [] := by
  change (Table.get? (if s.isType then _ else _) name).getD [] = _
  split
  · next hType =>
    rw [Table.get?_insert, hType, Bool.true_and]
    split
    · next hName => rw [hName, beq_self_eq_true, if_pos rfl, Option.getD_some]
    · next hName => rw [if_neg (by simpa using Ne.symm hName), List.append_nil]
  · next hType => rw [Bool.eq_false_iff.mpr hType, Bool.false_and, if_neg Bool.false_ne_true,
      List.append_nil]

theorem Indexed.push {t : SymbolTable} (h : t.Indexed) (s : Symbol) : (t.push s).Indexed where
  node_lt {node id} hGet := by
    rw [size_push]
    change (t.nodes.insert s.node t.size).get? node = some id at hGet
    rw [Table.get?_insert] at hGet
    split at hGet
    · cases hGet
      exact Nat.lt_succ_self _
    · exact Nat.lt_succ_of_lt (h.node_lt hGet)
  type_lt name id hMem := by
    rw [size_push]
    rw [types_push, List.mem_append] at hMem
    rcases hMem with hMem | hMem
    · exact Nat.lt_succ_of_lt (h.type_lt name id hMem)
    · split at hMem
      · exact List.mem_singleton.mp hMem ▸ Nat.lt_succ_self _
      · cases hMem
  byNode?_eq node := by
    change (t.nodes.insert s.node t.size).get? node >>= (t.push s).get? =
      (t.symbols ++ [s]).reverse.find? (·.node == node)
    rw [Table.get?_insert, List.reverse_concat, List.find?_cons]
    split
    · next hNode =>
      rw [hNode, beq_self_eq_true]
      exact get?_push_size t s
    · next hNode =>
      rw [beq_eq_false_iff_ne.mpr (Ne.symm hNode), ← h.byNode?_eq, byNode?]
      cases hGet : t.nodes.get? node with
      | none => rfl
      | some id => exact get?_push_of_lt t s (h.node_lt hGet)
  typesNamed_eq name := by
    have hOld : ((t.types.get? name).getD []).filterMap (t.push s).get? =
        t.symbols.filter fun s => s.isType && s.name == name := by
      rw [← h.typesNamed_eq, typesNamed]
      exact List.filterMap_congr fun id hMem => get?_push_of_lt t s (h.type_lt name id hMem)
    change _ = (t.symbols ++ [s]).filter _
    rw [typesNamed, types_push, List.filterMap_append, hOld, List.filter_append, List.filter_cons]
    split
    · exact congrArg _ (by simp [get?_push_size])
    · rfl

theorem Indexed.extend {t : SymbolTable} (h : t.Indexed) (l : List Symbol) :
    (t.extend l).Indexed := by
  induction l generalizing t with
  | nil => exact h
  | cons s l ih => exact ih (h.push s)

theorem indexed_ofUnit (unit : CompilationUnit) : (ofUnit unit).Indexed :=
  ofUnit_eq unit ▸ indexed_empty.extend _

end SymbolTable

end Stackable
