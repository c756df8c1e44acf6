import IntentBuild.Proofs.Files.Path
import IntentBuild.Proofs.Operation.Heedless
import Mathlib.Logic.Relation

/-!
# Where files stand in the graph

A file below the directory of a root has a row of parts (`Graph.HasParts`), and its node stands at
the end of a chain of nodes below the root, one for every part (`Graph.Stands`).  A node stands for
one row only, and one node at most stands for a row (`Stands.unique`, `Stands.names_eq`).

`placeOf` gives the node that stands for the parts, and makes no nodes but those on the way
(`runs_placeOf`).  `findPlaceOf` finds exactly the node that stands there (`findPlace_run`), and
`fileNodes` lists it under the path of its parts (`mem_fileNodes_of_stands`).
-/

namespace IntentBuild

open Op

/-- The node with an identifier has a key. -/
def Workspace.Keyed (w : Workspace) (id : String) (k : NodeKey) : Prop :=
  ∃ n, w.tables.node? id = some n ∧ n.key = k

namespace Workspace.Keyed

variable {w w' : Workspace} {i j : String} {k k' : NodeKey}

theorem of_node? {n : Node} (h : w.tables.node? n.id = some n) : w.Keyed n.id n.key := ⟨n, h, rfl⟩

/-- A node has one key. -/
theorem key_eq (h : w.Keyed i k) (h' : w.Keyed i k') : k = k' := by
  obtain ⟨n, hn, rfl⟩ := h
  obtain ⟨m, hm, rfl⟩ := h'
  rw [hn, Option.some.injEq] at hm
  rw [hm]

/-- A key has one node. -/
theorem id_eq (hw : w.Sound) (h : w.Keyed i k) (h' : w.Keyed j k) : i = j := by
  obtain ⟨n, hn, rfl⟩ := h
  obtain ⟨m, hm, hk⟩ := h'
  exact hw.wellFormed.nodes.unique hn hm hk.symm

theorem isParent {p : String} (h : w.Keyed i k) (hp : k.parent = some p) :
    w.tables.IsParent p i := by
  obtain ⟨n, hn, rfl⟩ := h
  exact ⟨n, hn, hp⟩

/-- The node that is found by a key. -/
theorem findNode? (hw : w.Sound) : w.Keyed i k ↔ ∃ n, w.tables.findNode? k = some n ∧ n.id = i := by
  constructor
  · rintro ⟨n, hn, hk⟩
    obtain rfl := hw.wellFormed.nodes.owned hn
    exact ⟨n, (Tables.findNode?_eq_some hw.wellFormed).mpr ⟨hn, hk⟩, rfl⟩
  · rintro ⟨n, hn, rfl⟩
    obtain ⟨hn, hk⟩ := (Tables.findNode?_eq_some hw.wellFormed).mp hn
    exact ⟨n, hn, hk⟩

/-- Whatever happens, a node that is still there has the same key. -/
theorem later {A : Event → Prop} (h : w.Keyed i k) (hw : w.Sound) (hr : Reach A w w')
    (hi : i ∈ Assoc.keys w'.tables.nodes) : w'.Keyed i k := by
  obtain ⟨n, hn, rfl⟩ := h
  obtain rfl := hw.wellFormed.nodes.owned hn
  obtain ⟨m, hm⟩ := Assoc.exists_get?_of_mem_keys hi
  exact ⟨m, hm, ((Handle.of_node? hw hn).reach hr).key hm⟩

end Workspace.Keyed

/-- The change does not delete the node. -/
def Event.Leaves (i : String) : Event → Prop
  | .dropNode n => n.id ≠ i
  | _ => True

/-- The node with an identifier has a key, and a value that is read of it. -/
def Workspace.Has {α : Type} (w : Workspace) (i : String) (k : NodeKey) (f : Node → α) (a : α) :
    Prop :=
  ∃ n, w.tables.node? i = some n ∧ n.key = k ∧ f n = a

theorem Workspace.Has.keyed {α : Type} {w : Workspace} {i : String} {k : NodeKey} {f : Node → α}
    {a : α} (h : w.Has i k f a) : w.Keyed i k := by
  obtain ⟨n, hn, hk, -⟩ := h
  exact ⟨n, hn, hk⟩

/-- The change leaves a value of the node with a key alone. -/
def Event.Fixes {α : Type} (k : NodeKey) (f : Node → α) : Event → Prop
  | .content old new => old.key = k → f new = f old
  | _ => True

/-- The change leaves a value of the node with an identifier and a key alone. -/
def Event.FixesAt {α : Type} (i : String) (k : NodeKey) (f : Node → α) : Event → Prop
  | .content old new => old.id = i → old.key = k → f new = f old
  | _ => True

/-- A node keeps a value that is left alone until the node is deleted. -/
theorem lasts_hasAt {α : Type} (i : String) (k : NodeKey) (f : Node → α) (a : α) :
    Lasts (fun e => e.Leaves i ∧ e.FixesAt i k f) fun w => w.Has i k f a := by
  intro e w w' he hw h hk
  obtain ⟨n, hn, hnk, hna⟩ := hk
  cases h with
  | @node _ m t s h hs _ _ =>
      obtain ⟨rfl, hnew, -⟩ := Tables.insertNode_eq_ok h
      refine ⟨n, ?_, hnk, hna⟩
      change Assoc.get? i (Assoc.set m.id m w.tables.nodes) = some n
      rw [Assoc.get?_set, if_neg]
      · exact hn
      · rintro rfl
        exact hnew (Assoc.mem_keys_of_get? hn)
  | @content _ old new ho hkey _ =>
      by_cases hid : i = new.id
      · subst hid
        rw [ho, Option.some.injEq] at hn
        subst hn
        exact ⟨new, (Tables.node?_putNode ..).trans (if_pos rfl), hkey.trans hnk,
          ((he.resolve_left id).2 (hw.wellFormed.nodes.owned ho) hnk).trans hna⟩
      · exact ⟨n, (Tables.node?_putNode ..).trans ((if_neg hid).trans hn), hnk, hna⟩
  | @dropNode _ d hd _ =>
      refine ⟨n, (Tables.node?_dropNode ..).trans ((if_neg ?_).trans hn), hnk, hna⟩
      exact Ne.symm (he.resolve_left id).1
  | edge h => obtain ⟨rfl, -⟩ := Tables.insertEdge_eq_ok h; exact ⟨n, hn, hnk, hna⟩
  | _ => exact ⟨n, hn, hnk, hna⟩

/-- A node keeps a value that is left alone at its key. -/
theorem lasts_has {α : Type} (i : String) (k : NodeKey) (f : Node → α) (a : α) :
    Lasts (fun e => e.Leaves i ∧ e.Fixes k f) fun w => w.Has i k f a := by
  intro e w w' he hw h hk
  refine lasts_hasAt i k f a (he.imp_right fun he => ⟨he.1, ?_⟩) hw h hk
  cases e with
  | content => exact fun _ => he.2
  | _ => trivial

/-- A node keeps its key until it is deleted. -/
theorem lasts_keyed (i : String) (k : NodeKey) :
    Lasts (Event.Leaves i) fun w => w.Keyed i k := by
  intro e w w' he hw h hk
  obtain ⟨n, hn, hnk⟩ := hk
  refine (lasts_has i k (fun _ => ()) () (he.imp_right fun he => ⟨he, ?_⟩) hw h
    ⟨n, hn, hnk, rfl⟩).keyed
  cases e with
  | content => exact fun _ => rfl
  | _ => trivial

namespace Graph

variable {w w' : Workspace} {kind : FileKind} {p i j : String} {names names' : List String}

/-! ## Parts -/

/-- A path below a directory, as a text whose parts all name something of their own. -/
def Below (s : String) : Prop := ∀ part ∈ Text.splitAt '/' s, isHollow part = false

/-- A text is that of a path below the directory of a root, and these are its parts. -/
def HasParts (root : Node) (full : String) (parts : List String) : Prop :=
  ∃ P, root.pathEntry = .path P ∧ partsBelow (rootText P) full = .ok parts

/-- The directory that a node keeps is spelled by a text. -/
theorem isName_of_pathEntry {n : Node} {p : Path} (h : n.pathEntry = .path p) :
    ∀ m ∈ p.names, Path.IsName m := by
  unfold Node.pathEntry at h
  split at h
  · cases h
  · split at h
    · cases h
    · split at h
      · cases h
        intro m hm
        exact Path.isName_of_mem_ofText hm
      · cases h

theorem rootPath_eq_ok {root : Node} {P : Path} (h : (rootPath root).run w = .ok P w') :
    root.pathEntry = .path P := by
  obtain ⟨o, w₁, ho, h⟩ := bind_eq_ok.mp h
  cases o with
  | none => cases h
  | some q => cases h; exact path?_eq_ok ho

theorem rootPath_run {root : Node} {P : Path} (h : root.pathEntry = .path P) (w : Workspace) :
    (rootPath root).run w = .ok P w := by
  rw [rootPath, bind_ok (path?_run h w)]
  rfl

theorem relativeParts_eq_ok {root : Node} {full : String} {parts : List String}
    (h : (relativeParts root full).run w = .ok parts w') : HasParts root full parts := by
  obtain ⟨P, w₁, hP, h⟩ := bind_eq_ok.mp h
  refine ⟨P, rootPath_eq_ok hP, ?_⟩
  cases hparts : partsBelow (rootText P) full with
  | error e => rw [hparts] at h; cases h
  | ok ps => rw [hparts] at h; cases h; rfl

theorem HasParts.run {root : Node} {full : String} {parts : List String}
    (h : HasParts root full parts) (w : Workspace) :
    (relativeParts root full).run w = .ok parts w := by
  obtain ⟨P, hP, hparts⟩ := h
  rw [relativeParts, bind_ok (rootPath_run hP w), hparts]
  rfl

/-- The parts are those of the text that they join to. -/
theorem HasParts.spec {root : Node} {full : String} {parts : List String}
    (h : HasParts root full parts) : parts = Text.splitAt '/' (Text.joinWith "/" parts) ∧
      Below (Text.joinWith "/" parts) := by
  obtain ⟨P, -, hparts⟩ := h
  obtain ⟨s, rfl, hj, hs⟩ := partsBelow_eq_ok hparts
  rw [hj]
  exact ⟨rfl, hs⟩

theorem HasParts.ne_nil {root : Node} {full : String} {parts : List String}
    (h : HasParts root full parts) : parts ≠ [] := by
  rw [h.spec.1]
  exact fun hnil => Text.splitChars_ne_nil _ _ (List.map_eq_nil_iff.mp hnil)

theorem HasParts.isName {root : Node} {full : String} {parts : List String}
    (h : HasParts root full parts) : ∀ part ∈ parts, Path.IsName part ∧ part ≠ ".." := by
  intro part hpart
  obtain ⟨heq, hbelow⟩ := h.spec
  rw [heq] at hpart
  have hhollow := hbelow part hpart
  rw [isHollow, Bool.or_eq_false_iff, Bool.or_eq_false_iff, beq_eq_false_iff_ne,
    beq_eq_false_iff_ne, beq_eq_false_iff_ne] at hhollow
  exact ⟨⟨hhollow.1.1, hhollow.1.2, Text.not_mem_of_splitAt hpart⟩, hhollow.2⟩

/-- A path below the directory of a root has its names for parts. -/
theorem HasParts.of_below {root : Node} {P : Path} (hP : root.pathEntry = .path P)
    (hne : P.names ≠ []) {names : List String} (hnames : names ≠ [])
    (h : ∀ n ∈ names, Path.IsName n ∧ n ≠ "..") : HasParts root (P.below names).text names := by
  obtain ⟨n, ns, rfl⟩ := List.exists_cons_of_ne_nil hnames
  refine ⟨P, hP, ?_⟩
  rw [Path.text_below hne hnames, rootText_eq hne (isName_of_pathEntry hP), partsBelow_append,
    Text.splitAt_joinWith n ns fun m hm => (h m hm).1.whole, if_neg]
  rw [List.any_eq_true]
  rintro ⟨m, hm, hhollow⟩
  have hm := h m hm
  simp [isHollow, hm.1.nonempty, hm.1.moves, hm.2] at hhollow

/-- A text has one row of parts. -/
theorem HasParts.unique {root : Node} {full : String} {parts parts' : List String}
    (h : HasParts root full parts) (h' : HasParts root full parts') : parts = parts' := by
  obtain ⟨P, hP, hparts⟩ := h
  obtain ⟨P', hP', hparts'⟩ := h'
  cases hP.symm.trans hP'
  rw [hparts] at hparts'
  exact Except.ok.inj hparts'

theorem relativePath_eq_ok {root : Node} {full s : String}
    (h : (relativePath root full).run w = .ok s w') :
    ∃ parts, HasParts root full parts ∧ s = Text.joinWith "/" parts := by
  obtain ⟨parts, w₁, hp, h⟩ := bind_eq_ok.mp h
  cases h
  exact ⟨parts, relativeParts_eq_ok hp, rfl⟩

/-! ## Chains of nodes -/

/-- A node below a node that a row of directories leads to. -/
inductive Descends (w : Workspace) (kind : FileKind) (p : String) : List String → String → Prop
  | here : Descends w kind p [] p
  | down {names : List String} {name d i : String} (h : Descends w kind p names d)
      (hi : w.Keyed i ⟨some d, w.graph.instanceId, kind.dir, name⟩) :
      Descends w kind p (names ++ [name]) i

/-- A node of a file at the end of a row of names below a node: one for each directory on the way,
and one for the file. -/
inductive Stands (w : Workspace) (kind : FileKind) : String → List String → String → Prop
  | file {p name i : String} (h : w.Keyed i ⟨some p, w.graph.instanceId, kind.file, name⟩) :
      Stands w kind p [name] i
  | dir {p name d i : String} {names : List String}
      (h : w.Keyed d ⟨some p, w.graph.instanceId, kind.dir, name⟩)
      (rest : Stands w kind d names i) : Stands w kind p (name :: names) i

/-- Where a row of directories leads is the node itself or below it. -/
theorem Descends.reflTransGen (h : Descends w kind p names i) :
    Relation.ReflTransGen w.tables.IsParent p i := by
  induction h with
  | here => exact .refl
  | down _ hi ih => exact ih.tail (hi.isParent rfl)

/-- One row of directories leads to a node. -/
theorem Descends.names_eq (hw : w.Sound) (h : Descends w kind p names i) (h' : Descends w kind p names' i) :
    names = names' := by
  -- A node that a row leads down to is strictly below, so the empty row leads to no such node.
  have strict {names : List String} {name d : String} (h : Descends w kind p names d)
      (hi : w.Keyed p ⟨some d, w.graph.instanceId, kind.dir, name⟩) : False :=
    hw.wellFormed.acyclic p (.tail' h.reflTransGen (hi.isParent rfl))
  induction h generalizing names' with
  | here =>
      cases h' with
      | here => rfl
      | down h' hi => exact (strict h' hi).elim
  | down h hi ih =>
      cases h' with
      | here => exact (strict h hi).elim
      | down h' hi' =>
          have hkey := hi.key_eq hi'
          injection hkey with hd _ _ hname
          injection hd with hd
          subst hd hname
          rw [ih h']

theorem Descends.cons {d name : String}
    (hd : w.Keyed d ⟨some p, w.graph.instanceId, kind.dir, name⟩) (h : Descends w kind d names i) :
    Descends w kind p (name :: names) i := by
  induction h with
  | here => exact .down .here hd
  | down _ hi ih => exact .down ih hi

namespace Stands

/-- A file stands in a directory that the names before its own lead to. -/
theorem descends (h : Stands w kind p names i) : ∃ init name d, names = init ++ [name] ∧
    Descends w kind p init d ∧ w.Keyed i ⟨some d, w.graph.instanceId, kind.file, name⟩ := by
  induction h with
  | @file p name _ h => exact ⟨[], name, p, rfl, .here, h⟩
  | @dir p name d _ _ h _ ih =>
      obtain ⟨init, last, d', rfl, hlead, hi⟩ := ih
      exact ⟨name :: init, last, d', rfl, hlead.cons h, hi⟩

theorem of_descends {name d : String} (h : Descends w kind p names d)
    (hi : w.Keyed i ⟨some d, w.graph.instanceId, kind.file, name⟩) :
    Stands w kind p (names ++ [name]) i := by
  have go {names : List String} {d : String} (h : Descends w kind p names d) :
      ∀ {rest : List String}, Stands w kind d rest i → Stands w kind p (names ++ rest) i := by
    induction h with
    | here => exact id
    | down _ hd ih =>
        intro rest hrest
        rw [List.append_assoc]
        exact ih (.dir hd hrest)
  exact go h (.file hi)

/-- A node stands for one row of names. -/
theorem names_eq (hw : w.Sound) (h : Stands w kind p names i) (h' : Stands w kind p names' i) :
    names = names' := by
  obtain ⟨init, name, d, rfl, hlead, hi⟩ := h.descends
  obtain ⟨init', name', d', rfl, hlead', hi'⟩ := h'.descends
  have hkey := hi.key_eq hi'
  injection hkey with hd _ _ hname
  injection hd with hd
  subst hd hname
  rw [hlead.names_eq hw hlead']

/-- One node stands for a row of names. -/
theorem unique (hw : w.Sound) (h : Stands w kind p names i) (h' : Stands w kind p names j) :
    i = j := by
  induction h with
  | file h =>
      cases h' with
      | file h' => exact h.id_eq hw h'
      | dir _ rest => cases rest
  | dir h rest ih =>
      cases h' with
      | file => cases rest
      | dir h' rest' =>
          obtain rfl := h.id_eq hw h'
          exact ih rest'

/-- A file that stands at a row lies below. -/
theorem reflTransGen (h : Stands w kind p names i) :
    Relation.ReflTransGen w.tables.IsParent p i := by
  obtain ⟨_, _, _, -, hlead, hi⟩ := h.descends
  exact hlead.reflTransGen.tail (hi.isParent rfl)

theorem keyed (h : Stands w kind p names i) :
    ∃ d name, w.Keyed i ⟨some d, w.graph.instanceId, kind.file, name⟩ := by
  obtain ⟨_, name, d, -, -, hi⟩ := h.descends
  exact ⟨d, name, hi⟩

end Stands

/-! ## Finding places -/

/-- The search for a place finds exactly the node that stands there. -/
theorem findPlace_run (hw : w.Sound) {parts : List String} (hparts : parts ≠ []) (parent : Node) :
    ∃ o, (findPlace kind parent parts).run w = .ok o w ∧
      (∀ n, o = some n → w.tables.node? n.id = some n) ∧
        ∀ i, (∃ n, o = some n ∧ n.id = i) ↔ Stands w kind parent.id parts i := by
  have child (parent : Node) (type : NodeType) (name : String) :
      (child? (some parent) type name).run w =
        .ok (w.tables.findNode? ⟨some parent.id, w.graph.instanceId, type, name⟩) w := rfl
  induction parts generalizing parent with
  | nil => exact absurd rfl hparts
  | cons name parts ih =>
      cases parts with
      | nil =>
          refine ⟨_, by rw [findPlace]; exact child parent kind.file name, fun n hn => ?_,
            fun i => ?_⟩
          · exact ((Tables.findNode?_eq_some hw.wellFormed).mp hn).1
          · rw [← Workspace.Keyed.findNode? hw]
            refine ⟨.file, fun h => ?_⟩
            cases h with
            | file h => exact h
            | dir _ rest => cases rest
      | cons next rest =>
          have hrest : next :: rest ≠ [] := List.cons_ne_nil next rest
          rw [findPlace.eq_3 kind parent name _ hrest, bind_ok (child parent kind.dir name)]
          cases hd : w.tables.findNode? ⟨some parent.id, w.graph.instanceId, kind.dir, name⟩ with
          | none =>
              refine ⟨none, rfl, fun _ h => (nomatch h), fun i =>
                ⟨fun ⟨_, hn, _⟩ => (nomatch hn), fun h => ?_⟩⟩
              cases h with
              | dir hkeyed _ =>
                  obtain ⟨d, hd', -⟩ := (Workspace.Keyed.findNode? hw).mp hkeyed
                  exact absurd (hd.symm.trans hd') nofun
          | some d =>
              obtain ⟨o, hrun, hnode, hstands⟩ := ih hrest d
              refine ⟨o, hrun, hnode, fun i => (hstands i).trans ?_⟩
              have hkeyed := (Workspace.Keyed.findNode? hw).mpr ⟨d, hd, rfl⟩
              refine ⟨.dir hkeyed, fun h => ?_⟩
              cases h with
              | dir hkeyed' rest =>
                  obtain rfl := hkeyed.id_eq hw hkeyed'
                  exact rest

theorem findPlaceOf_run (hw : w.Sound) {root : Node} {full : String} {parts : List String}
    (h : HasParts root full parts) : ∃ o, (findPlaceOf root full kind).run w = .ok o w ∧
      (∀ n, o = some n → w.tables.node? n.id = some n) ∧
        ∀ i, (∃ n, o = some n ∧ n.id = i) ↔ Stands w kind root.id parts i := by
  obtain ⟨o, hrun, ho⟩ := findPlace_run hw h.ne_nil root
  refine ⟨o, ?_, ho⟩
  rw [findPlaceOf, bind_ok (h.run w)]
  exact hrun

/-- A file that was found is a file. -/
theorem findPlaceOf_eq_ok (hw : w.Sound) {root n : Node} {full : String} {kind : FileKind}
    (h : (findPlaceOf root full kind).run w = .ok (some n) w') :
    w.tables.node? n.id = some n ∧ n.type = kind.file := by
  obtain ⟨parts, w₁, hp, -⟩ := bind_eq_ok.mp h
  obtain ⟨o, hrun, hnode, hstands⟩ := findPlaceOf_run hw (relativeParts_eq_ok hp)
  rw [h] at hrun
  injection hrun with ho
  subst ho
  have hn := hnode n rfl
  obtain ⟨d, name, m, hm, hk⟩ := ((hstands n.id).mp ⟨n, rfl, rfl⟩).keyed
  rw [hn, Option.some.injEq] at hm
  exact ⟨hn, hm ▸ congrArg NodeKey.type hk⟩

/-! ## Making places -/

/-- The node is one on the way to the place of a file with these parts. -/
structure OnPlace (kind : FileKind) (parts : List String) (n : Node) : Prop where
  /-- It has no structured content. -/
  json : n.json = none
  /-- It is a directory on the way, or the file. -/
  part : n.type = kind.dir ∧ n.name ∈ parts.dropLast ∨
    n.type = kind.file ∧ parts.getLast? = some n.name

/-- Only nodes on the way to a place are made. -/
def Placing (kind : FileKind) (parts : List String) : Event → Prop
  | .node n => OnPlace kind parts n
  | _ => False

theorem Placing.leaves {parts : List String} {e : Event} (he : Placing kind parts e) (i : String) :
    e.Leaves i := by
  cases e <;> trivial

/-- A place that is made has a node that stands there. -/
theorem runs_makePlace {parts : List String} (hparts : parts ≠ []) (parent : Node) :
    Runs (Placing kind parts) w (makePlace kind parent parts) fun n w' =>
      w'.tables.node? n.id = some n ∧ Stands w' kind parent.id parts n.id := by
  induction parts generalizing w parent with
  | nil => exact absurd rfl hparts
  | cons name parts ih =>
      cases parts with
      | nil =>
          intro hw
          have hget : Runs (Placing kind [name]) w (getOrCreate (some parent) kind.file name none) _ :=
            runs_getOrCreate fun n hk hj _ =>
              ⟨hj, .inr ⟨congrArg NodeKey.type hk, congrArg some (congrArg NodeKey.name hk).symm⟩⟩
          refine hget.weaken (fun n w' hr hn => ?_) hw
          obtain ⟨hn, hk⟩ := hn.node? hw.wellFormed
          exact ⟨hn, .file ⟨n, hn, hk.trans (by rw [hr.instanceId_eq]; rfl)⟩⟩
      | cons next rest =>
          have hget : Runs (Placing kind (name :: next :: rest)) w
              (getOrCreate (some parent) kind.dir name none) _ :=
            runs_getOrCreate fun n hk hj _ => ⟨hj, .inl ⟨congrArg NodeKey.type hk, by
              rw [show n.name = name from congrArg NodeKey.name hk]
              exact .head _⟩⟩
          intro hw
          refine (hget.bind fun d w₁ hw₁ hr₁ hd => ?_) hw
          obtain ⟨hd, hk⟩ := hd.node? hw.wellFormed
          have hkeyed : w₁.Keyed d.id ⟨some parent.id, w₁.graph.instanceId, kind.dir, name⟩ :=
            ⟨d, hd, hk.trans (by rw [hr₁.instanceId_eq]; rfl)⟩
          refine Runs.weaken (((ih (w := w₁) nofun d).weaken fun _ _ hr h => And.intro hr h).mono
            fun e he => ?_) fun n w' _ h => ⟨h.2.1, .dir ?_ h.2.2⟩
          · cases e with
            | node n => exact ⟨he.json, he.part.imp_left fun h => ⟨h.1, .tail _ h.2⟩⟩
            | _ => exact he.elim
          · have := Lasts.reach (lasts_keyed d.id _) hw₁ (h.1.mono fun _ he => he.leaves _) hkeyed
            rwa [h.1.instanceId_eq]

theorem runs_placeOf {root : Node} {full : String} {parts : List String}
    (h : HasParts root full parts) :
    Runs (Placing kind parts) w (placeOf root full kind) fun n w' =>
      w'.tables.node? n.id = some n ∧ Stands w' kind root.id parts n.id :=
  .reads (h.run w) (runs_makePlace h.ne_nil root)

/-- Where new nodes on the way to a place are admitted, any text that is given a place has parts. -/
theorem runs_placeOf_any {A : Event → Prop} {root : Node} {full : String}
    (hA : ∀ {parts}, HasParts root full parts → ∀ n, OnPlace kind parts n → A (.node n)) :
    Runs A w (placeOf root full kind) fun n w' => ∃ parts, HasParts root full parts ∧
      w'.tables.node? n.id = some n ∧ Stands w' kind root.id parts n.id := by
  refine .reader (reader_relativeParts _ _) fun parts hparts => ?_
  have hparts := relativeParts_eq_ok hparts
  refine ((runs_makePlace hparts.ne_nil root).mono fun e he => ?_).weaken
    fun _ _ _ h => ⟨parts, hparts, h⟩
  cases e with
  | node n => exact hA hparts n he
  | _ => exact he.elim

/-- The place of a text that has parts below a root is not refused for its path. -/
theorem avoids_placeOf {root : Node} {full : String} {parts : List String}
    (h : HasParts root full parts) (kind : FileKind) :
    Avoids Failure.IsPath (placeOf root full kind) where
  out {w _ _} hrun := by
    rw [placeOf, bind_ok (h.run w)] at hrun
    exact (avoids_makePlace kind root parts).out hrun

/-! ## Listing files -/

theorem mem_filesFrom (hw : w.Sound) {kind : FileKind} (fuel : Nat) {parent : Node} {dir : Path}
    {l : List (Path × Node)} (h : (filesFrom kind fuel parent dir).run w = .ok l w')
    {e : Path × Node} (he : e ∈ l) : w.tables.node? e.2.id = some e.2 ∧ e.2.type = kind.file := by
  induction fuel generalizing parent dir l w' with
  | zero => cases h
  | succ fuel ih =>
      obtain ⟨cs, w₁, hcs, h₁⟩ := bind_eq_ok.mp h
      have hcs' : cs = w.tables.listNodes (some parent.id) none none := by cases hcs; rfl
      rw [(reader_children ..).eq hcs] at h₁
      obtain ⟨found, w₂, hfound, h₂⟩ := bind_eq_ok.mp h₁
      cases h₂
      obtain ⟨es, hes, he⟩ := List.mem_flatten.mp he
      obtain ⟨c, hc, hrun⟩ := Reader.mem_of_mapM (fun c => .ite (reader_filesFrom kind fuel _ _)
        (.ite (.pure _) (.pure _))) hfound es hes
      split at hrun
      · exact ih hrun he
      · split at hrun
        · rename_i htype
          cases hrun
          obtain rfl := List.mem_singleton.mp he
          rw [hcs'] at hc
          exact ⟨(mem_listNodes hw.wellFormed hc).1, by simpa using htype⟩
        · cases hrun
          cases he

theorem mem_fileNodes (hw : w.Sound) {root : Node} {kind : FileKind} {l : List (Path × Node)}
    (h : (fileNodes root kind).run w = .ok l w') {e : Path × Node} (he : e ∈ l) :
    w.tables.node? e.2.id = some e.2 ∧ e.2.type = kind.file := by
  obtain ⟨fuel, w₁, hf, h₁⟩ := bind_eq_ok.mp h
  rw [reader_depthBound.eq hf] at h₁
  obtain ⟨dir, w₂, hd, h₂⟩ := bind_eq_ok.mp h₁
  rw [(reader_rootPath root).eq hd] at h₂
  obtain ⟨found, w₃, hfound, h₃⟩ := bind_eq_ok.mp h₂
  cases h₃
  exact mem_filesFrom hw fuel hfound (Sorting.mem_sort.mp he)

/-- A file that stands below a node is listed under the path of its names. -/
theorem mem_filesFrom_of_stands (hw : w.Sound) (hkind : kind.file ≠ kind.dir) (fuel : Nat)
    {parent n : Node} {dir : Path} {l : List (Path × Node)}
    (h : (filesFrom kind fuel parent dir).run w = .ok l w')
    (hn : w.tables.node? n.id = some n) (hs : Stands w kind parent.id names n.id)
    (hnames : ∀ m ∈ names, Path.IsName m) : (dir.below names, n) ∈ l := by
  induction fuel generalizing parent dir l w' names with
  | zero => cases h
  | succ fuel ih =>
      obtain ⟨cs, w₁, hcs, h₁⟩ := bind_eq_ok.mp h
      have hcs' : cs = w.tables.listNodes (some parent.id) none none := by cases hcs; rfl
      rw [(reader_children ..).eq hcs] at h₁
      obtain ⟨found, w₂, hfound, h₂⟩ := bind_eq_ok.mp h₁
      cases h₂
      have hread (c : Node) : Reader (if c.type == kind.dir then filesFrom kind fuel c (dir.child c.name)
          else if c.type == kind.file then return [(dir.child c.name, c)] else return []) :=
        .ite (reader_filesFrom kind fuel _ _) (.ite (.pure _) (.pure _))
      have listed {c : Node} (hc : w.tables.node? c.id = some c)
          (hp : c.parent = some parent.id) : c ∈ cs := by
        rw [hcs', Tables.listNodes, List.mem_filter, Tables.nodesUnder, List.mem_filter]
        exact ⟨⟨(Tables.mem_allNodes hw.wellFormed).mpr hc, by simpa using hp⟩, rfl⟩
      have hchild {name : String} (hname : Path.IsName name) : dir.child name = dir.below [name] :=
        Path.child_name dir hname
      cases hs with
      | @file _ name _ hi =>
          obtain ⟨m, hm, hk⟩ := hi
          rw [hn, Option.some.injEq] at hm
          subst hm
          obtain ⟨es, hes, hrun⟩ := Reader.exists_of_mapM hread hfound n
            (listed hn (congrArg NodeKey.parent hk))
          have htype : n.type = kind.file := congrArg NodeKey.type hk
          have hname : n.name = name := congrArg NodeKey.name hk
          rw [if_neg (by simpa [htype] using hkind), if_pos (by simpa using htype), hname,
            hchild (hnames name (.head _))] at hrun
          cases hrun
          exact List.mem_flatten.mpr ⟨_, hes, .head _⟩
      | @dir _ name d _ names hd rest =>
          obtain ⟨m, hm, hk⟩ := hd
          obtain rfl := hw.wellFormed.nodes.owned hm
          obtain ⟨es, hes, hrun⟩ := Reader.exists_of_mapM hread hfound m
            (listed hm (congrArg NodeKey.parent hk))
          have htype : m.type = kind.dir := congrArg NodeKey.type hk
          have hname : m.name = name := congrArg NodeKey.name hk
          rw [if_pos (by simpa using htype), hname, hchild (hnames name (.head _))] at hrun
          have hmem := ih hrun rest fun q hq => hnames q (.tail _ hq)
          rw [Path.below_below] at hmem
          exact List.mem_flatten.mpr ⟨es, hes, hmem⟩

/-- The list of the files below a root has every file that stands there, under its path. -/
theorem mem_fileNodes_of_stands (hw : w.Sound) (hkind : kind.file ≠ kind.dir) {root n : Node}
    {P : Path} (hP : root.pathEntry = .path P) {l : List (Path × Node)}
    (h : (fileNodes root kind).run w = .ok l w') (hn : w.tables.node? n.id = some n)
    (hs : Stands w kind root.id names n.id) (hnames : ∀ m ∈ names, Path.IsName m) :
    (P.below names, n) ∈ l := by
  obtain ⟨fuel, w₁, hf, h₁⟩ := bind_eq_ok.mp h
  rw [reader_depthBound.eq hf, bind_ok (rootPath_run hP w)] at h₁
  obtain ⟨found, w₂, hfound, h₂⟩ := bind_eq_ok.mp h₁
  cases h₂
  exact Sorting.mem_sort.mpr (mem_filesFrom_of_stands hw hkind fuel hfound hn hs hnames)

end Graph

end IntentBuild
