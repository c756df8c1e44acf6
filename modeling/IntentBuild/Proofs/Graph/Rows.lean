import IntentBuild.Proofs.Graph.Shelter

/-!
# Rows that come

A file stands at a row of names only after a node was made for it.  A new directory brings no row,
since nothing is below it yet, and a new file brings its own row and no other (`stands_of_new`).  So
making the place of a file adds at most the row of this file (`rows_placeOf`), and where no file
nodes are made, no row comes (`Reach.stands`).

The list of the files below a root has a file that stands at a row under the path of this row, and
under no other (`path_of_mem_fileNodes`).  It is always given (`fileNodes_run`), has no node twice
(`nodup_fileNodes`), and where all that is below the root belongs to the instance it has only files that
stand at a row (`stands_of_mem_fileNodes`).
-/

namespace IntentBuild

open Op

/-- A key that a node has after a change it had before, unless the node is new. -/
theorem Happens.keyed {e : Event} {w w' : Workspace} (h : Happens e w w') {i : String} {k : NodeKey}
    (hk : w'.Keyed i k) : w.Keyed i k ∨ ∃ m, e = .node m ∧ m.id = i ∧ m.key = k := by
  obtain ⟨n, hn, rfl⟩ := hk
  cases h with
  | @node _ m t s h _ _ _ =>
      obtain ⟨rfl, -⟩ := Tables.insertNode_eq_ok h
      change Assoc.get? i (Assoc.set m.id m w.tables.nodes) = some n at hn
      rw [Assoc.get?_set] at hn
      split at hn
      · rename_i hid
        cases hn
        exact .inr ⟨_, rfl, hid.symm, rfl⟩
      · exact .inl ⟨n, hn, rfl⟩
  | @content _ old new ho hkey _ =>
      have hn := (Tables.node?_putNode ..).symm.trans hn
      split at hn
      · rename_i hid
        cases hn
        exact .inl ⟨old, hid ▸ ho, hkey.symm⟩
      · exact .inl ⟨n, hn, rfl⟩
  | @dropNode _ d hd _ =>
      have hn := (Tables.node?_dropNode ..).symm.trans hn
      split at hn
      · cases hn
      · exact .inl ⟨n, hn, rfl⟩
  | edge h => obtain ⟨rfl, -⟩ := Tables.insertEdge_eq_ok h; exact .inl ⟨n, hn, rfl⟩
  | _ => exact .inl ⟨n, hn, rfl⟩

/-- The change makes no node of a type. -/
def Event.Omits (type : NodeType) : Event → Prop
  | .node n => n.type ≠ type
  | _ => True

namespace Graph

variable {w w' : Workspace} {kind : FileKind} {p i : String} {names parts : List String}

/-- The nodes on the way to a place are those of directories and files. -/
theorem OnPlace.omits {n : Node} {type : NodeType} (h : OnPlace kind parts n) (hd : kind.dir ≠ type)
    (hf : kind.file ≠ type) : Event.Omits type (.node n) := by
  intro htype
  rcases h.part with ⟨ht, -⟩ | ⟨ht, -⟩
  · exact hd (ht.symm.trans htype)
  · exact hf (ht.symm.trans htype)

/-- A new node brings no row but its own. -/
theorem stands_of_new (hw : w.Sound) {m : Node} (hid : w'.graph.instanceId = w.graph.instanceId)
    (hfresh : m.id ∉ Assoc.keys w.tables.nodes)
    (hparent : ∀ q, m.parent = some q → q ∈ Assoc.keys w.tables.nodes)
    (hback : ∀ {i k}, w'.Keyed i k → w.Keyed i k ∨ m.id = i ∧ m.key = k)
    (h : Stands w' kind p names i) : Stands w kind p names i ∨ i = m.id ∧ m.type = kind.file := by
  have bottom {j : String} {k : NodeKey} (hj : w'.Keyed j k) : k.parent ≠ some m.id := by
    intro hp
    rcases hback hj with ⟨n, hn, rfl⟩ | ⟨rfl, rfl⟩
    · exact hfresh (hw.wellFormed.parents hn hp)
    · exact hfresh (hparent _ hp)
  induction h with
  | file h =>
      rcases hback h with h | ⟨rfl, hk⟩
      · exact .inl (.file (hid ▸ h))
      · exact .inr ⟨rfl, congrArg NodeKey.type hk⟩
  | dir h rest ih =>
      rcases hback h with h | ⟨rfl, -⟩
      · exact ih.imp_left (.dir (hid ▸ h))
      · cases rest with
        | file h' => exact absurd rfl (bottom h')
        | dir h' => exact absurd rfl (bottom h')

theorem stands_of_happens (hw : w.Sound) {e : Event} (h : Happens e w w')
    (hs : Stands w' kind p names i) :
    Stands w kind p names i ∨ ∃ m, e = .node m ∧ m.id = i ∧ m.type = kind.file := by
  by_cases he : ∃ m, e = .node m
  · obtain ⟨m, rfl⟩ := he
    have hid := h.instanceId_eq
    have hback {i : String} {k : NodeKey} (hk : w'.Keyed i k) :
        w.Keyed i k ∨ m.id = i ∧ m.key = k :=
      (h.keyed hk).imp_right fun ⟨_, he, hm⟩ => by cases he; exact hm
    cases h with
    | node h =>
        obtain ⟨-, hfresh, -, hparent⟩ := Tables.insertNode_eq_ok h
        exact (stands_of_new hw hid hfresh hparent hback hs).imp_right
          fun ⟨hi, ht⟩ => ⟨m, rfl, hi.symm, ht⟩
  · have hback {i : String} {k : NodeKey} (hk : w'.Keyed i k) : w.Keyed i k :=
      (h.keyed hk).resolve_right fun ⟨m, hm, _⟩ => he ⟨m, hm⟩
    refine .inl ?_
    induction hs with
    | file h' => exact .file (h.instanceId_eq ▸ hback h')
    | dir h' _ ih => exact .dir (h.instanceId_eq ▸ hback h') ih

end Graph

/-- Where no files of a kind are made, no row comes. -/
theorem Reach.stands {w w' : Workspace} {kind : Graph.FileKind} (hw : w.Sound)
    (h : Reach (Event.Omits kind.file) w w') {p i : String} {names : List String}
    (hs : Graph.Stands w' kind p names i) : Graph.Stands w kind p names i := by
  induction h with
  | refl => exact hs
  | step h he hstep ih =>
      rcases Graph.stands_of_happens (h.sound hw) hstep hs with hs | ⟨m, rfl, -, ht⟩
      · exact ih hs
      · rcases he with he | he
        · cases he
        · exact absurd ht he

namespace Graph

variable {w w' : Workspace} {kind : FileKind} {p i : String} {names parts : List String}

/-- A node that was found or made brings no row but its own. -/
theorem stands_of_found (hw : w.Sound) {k : NodeKey} {json : Option Members} {n : Node}
    (hid : w'.graph.instanceId = w.graph.instanceId) (hn : Found w.tables k json n w'.tables)
    (hs : Stands w' kind p names i) : Stands w kind p names i ∨ i = n.id ∧ k.type = kind.file := by
  generalize ht : w'.tables = t at hn
  cases hn with
  | old hfind =>
      refine .inl ?_
      have hback {i : String} {k : NodeKey} (hk : w'.Keyed i k) : w.Keyed i k := by
        rwa [Workspace.Keyed, ht] at hk
      induction hs with
      | file h => exact .file (hid ▸ hback h)
      | dir h _ ih => exact .dir (hid ▸ hback h) ih
  | new h hk _ _ _ =>
      obtain ⟨rfl, hfresh, -, hparent⟩ := Tables.insertNode_eq_ok h
      have hback {i : String} {k : NodeKey} (hkeyed : w'.Keyed i k) :
          w.Keyed i k ∨ n.id = i ∧ n.key = k := by
        obtain ⟨m, hm, rfl⟩ := hkeyed
        rw [ht] at hm
        change Assoc.get? i (Assoc.set n.id n w.tables.nodes) = some m at hm
        rw [Assoc.get?_set] at hm
        by_cases hi : i = n.id
        · rw [if_pos hi, Option.some.injEq] at hm
          subst hm
          exact .inr ⟨hi.symm, rfl⟩
        · rw [if_neg hi] at hm
          exact .inl ⟨m, hm, rfl⟩
      refine (stands_of_new hw hid hfresh hparent hback hs).imp_right fun hnew => ?_
      exact ⟨hnew.1, hk ▸ hnew.2⟩

/-- Making a place brings no row but that of the place. -/
theorem rows_makePlace (hkind : kind.file ≠ kind.dir) (hparts : parts ≠ []) (parent : Node) :
    Runs (Placing kind parts) w (makePlace kind parent parts) fun n w' =>
      ∀ {p names i}, Stands w' kind p names i → Stands w kind p names i ∨ i = n.id := by
  induction parts generalizing w parent with
  | nil => exact absurd rfl hparts
  | cons name parts ih =>
      cases parts with
      | nil =>
          intro hw
          have hget : Runs (Placing kind [name]) w (getOrCreate (some parent) kind.file name none) _ :=
            runs_getOrCreate fun n hk hj _ =>
              ⟨hj, .inr ⟨congrArg NodeKey.type hk, congrArg some (congrArg NodeKey.name hk).symm⟩⟩
          exact hget.weaken (fun n w' hr hn _ _ _ hs =>
            (stands_of_found hw hr.instanceId_eq hn hs).imp_right And.left) hw
      | cons next rest =>
          have hget : Runs (Placing kind (name :: next :: rest)) w
              (getOrCreate (some parent) kind.dir name none) _ :=
            runs_getOrCreate fun n hk hj _ => ⟨hj, .inl ⟨congrArg NodeKey.type hk, by
              rw [show n.name = name from congrArg NodeKey.name hk]
              exact .head _⟩⟩
          intro hw
          refine (hget.bind fun d w₁ hw₁ hr₁ hd => ?_) hw
          refine ((ih (w := w₁) nofun d).mono fun e he => ?_).weaken fun n w' _ h p names i hs => ?_
          · cases e with
            | node n => exact ⟨he.json, he.part.imp_left fun h => ⟨h.1, .tail _ h.2⟩⟩
            | _ => exact he.elim
          · refine (h hs).imp_left fun hs => ?_
            exact (stands_of_found hw hr₁.instanceId_eq hd hs).resolve_right
              fun ⟨_, ht⟩ => hkind ht.symm

theorem rows_placeOf (hkind : kind.file ≠ kind.dir) {root : Node} {full : String}
    (h : HasParts root full parts) :
    Runs (Placing kind parts) w (placeOf root full kind) fun n w' =>
      Stands w' kind root.id parts n.id ∧
        ∀ {names i}, Stands w' kind root.id names i →
          Stands w kind root.id names i ∨ names = parts := by
  intro hw
  have hplace : Runs (Placing kind parts) w (placeOf root full kind) _ := runs_placeOf h
  have hrows : Runs (Placing kind parts) w (placeOf root full kind) fun n w' =>
      ∀ {p names i}, Stands w' kind p names i → Stands w kind p names i ∨ i = n.id :=
    .reads (h.run w) (rows_makePlace hkind h.ne_nil root)
  have hboth := hplace.and_run.weaken fun n w' hr hn => And.intro hr hn
  refine hboth.weaken (fun n w' _ hn => ?_) hw
  obtain ⟨hr, hrun, -, hstands⟩ := hn
  refine ⟨hstands, fun hs => ?_⟩
  refine ((hrows.ok hw hrun).2 hs).imp_right fun hi => ?_
  subst hi
  exact hs.names_eq (hr.sound hw) hstands

theorem Placing.spares {e : Event} (he : Placing kind parts e) : e.Spares fun _ => True := by
  cases e <;> first | exact he.elim | trivial

/-- Items are given places one after the other.  In the end each of them has one, and no rows have come
but theirs. -/
theorem rows_mapM_placeOf {α β : Type} (hkind : kind.file ≠ kind.dir) {root : Node} {l : List β}
    {full : β → String} {row : β → List String} (hrow : ∀ b ∈ l, HasParts root (full b) (row b))
    {g : β → Node → Op α} (hg : ∀ b n, Reader (g b n)) :
    Runs (fun e => ∃ parts, Placing kind parts e) w (l.mapM fun b => placeOf root (full b) kind >>= g b)
      fun as w' => List.Forall₂ (fun b a => ∃ n v, Stands w' kind root.id (row b) n.id ∧
          (g b n).run v = .ok a v) l as ∧
        ∀ {names i}, Stands w' kind root.id names i →
          Stands w kind root.id names i ∨ names ∈ l.map row := by
  refine Runs.mapM_fold (J := fun bs as w' => List.Forall₂ (fun b a => ∃ n v,
      Stands w' kind root.id (row b) n.id ∧ (g b n).run v = .ok a v) bs as ∧
    ∀ {names i}, Stands w' kind root.id names i → Stands w kind root.id names i ∨ names ∈ bs.map row)
    (fun bs as b hpre v hv _ hJ => ?_) ⟨.nil, .inl⟩
  have hb := hpre.subset (List.mem_append_right bs (List.mem_singleton_self b))
  refine ((rows_placeOf hkind (hrow b hb)).mono fun e he => ⟨_, he⟩).bind fun n v' hv' hr hn => ?_
  refine .of_reader (hg b n) fun a ha => ⟨?_, fun {names i} hs => ?_⟩
  · refine List.rel_append (hJ.1.imp fun _ _ h => ?_) (.cons ⟨n, v', hn.1, ha⟩ .nil)
    obtain ⟨m, u, hm, hrun⟩ := h
    exact ⟨m, u, hm.reach hv (hr.mono fun _ ⟨_, he⟩ => he.spares), hrun⟩
  · rw [List.map_append, List.mem_append]
    rcases hn.2 hs with hs | rfl
    · exact (hJ.2 hs).imp_right .inl
    · exact .inr (.inr (List.mem_singleton_self _))

/-! ## Listing files -/

/-- Of the nodes below a node one only is above another node, or is this node. -/
theorem only_child (hw : w.Sound) {c d x : String} (hc : w.tables.IsParent p c)
    (hd : w.tables.IsParent p d) (hcx : Relation.ReflTransGen w.tables.IsParent c x)
    (hdx : Relation.ReflTransGen w.tables.IsParent d x) : c = d := by
  have parent_eq {a b y : String} (ha : w.tables.IsParent a y) (hb : w.tables.IsParent b y) :
      a = b := by
    obtain ⟨n, hn, hp⟩ := ha
    obtain ⟨m, hm, hq⟩ := hb
    rw [hn, Option.some.injEq] at hm
    subst hm
    exact Option.some.inj (hp.symm.trans hq)
  -- A child strictly below another one would have the node below itself.
  have same {a b : String} (ha : w.tables.IsParent p a) (hb : w.tables.IsParent p b)
      (hab : Relation.ReflTransGen w.tables.IsParent a b) : a = b := by
    rcases Relation.ReflTransGen.cases_tail hab with rfl | ⟨q, haq, hqb⟩
    · rfl
    · obtain rfl := parent_eq hb hqb
      exact absurd (.head' ha haq) (hw.wellFormed.acyclic p)
  have hline := Relation.ReflTransGen.total_of_right_unique (r := Function.swap w.tables.IsParent)
    (fun _ _ _ => parent_eq) hcx.swap hdx.swap
  rcases hline with h | h
  · exact (same hd hc h.swap).symm
  · exact same hc hd h.swap

/-- A file that is listed lies at or below a child of the node, which is a directory or the file. -/
theorem mem_filesFrom_succ (hw : w.Sound) {fuel : Nat} {parent : Node} {dir : Path}
    {l : List (Path × Node)} (h : (filesFrom kind (fuel + 1) parent dir).run w = .ok l w')
    {e : Path × Node} (he : e ∈ l) : ∃ c, w.tables.node? c.id = some c ∧ c.parent = some parent.id ∧
      ((c.type = kind.dir ∧ ∃ l' w'', (filesFrom kind fuel c (dir.child c.name)).run w = .ok l' w'' ∧
        e ∈ l') ∨ c.type = kind.file ∧ e = (dir.child c.name, c)) := by
  obtain ⟨cs, w₁, hcs, h₁⟩ := bind_eq_ok.mp h
  have hcs' : cs = w.tables.listNodes (some parent.id) none none := by cases hcs; rfl
  rw [(reader_children ..).eq hcs] at h₁
  obtain ⟨found, w₂, hfound, h₂⟩ := bind_eq_ok.mp h₁
  cases h₂
  obtain ⟨es, hes, he⟩ := List.mem_flatten.mp he
  obtain ⟨c, hc, hrun⟩ := Reader.mem_of_mapM (fun c => .ite (reader_filesFrom kind fuel _ _)
    (.ite (.pure _) (.pure _))) hfound es hes
  rw [hcs'] at hc
  obtain ⟨hc, hp, -⟩ := mem_listNodes hw.wellFormed hc
  refine ⟨c, hc, hp, ?_⟩
  split at hrun
  · rename_i htype
    exact .inl ⟨by simpa using htype, es, _, hrun, he⟩
  · split at hrun
    · rename_i htype
      cases hrun
      exact .inr ⟨by simpa using htype, List.mem_singleton.mp he⟩
    · cases hrun
      cases he

/-- A file that is listed below a node lies below it. -/
theorem below_of_mem_filesFrom (hw : w.Sound) (fuel : Nat) {parent : Node} {dir : Path}
    {l : List (Path × Node)} (h : (filesFrom kind fuel parent dir).run w = .ok l w')
    {e : Path × Node} (he : e ∈ l) : Relation.ReflTransGen w.tables.IsParent parent.id e.2.id := by
  induction fuel generalizing parent dir l w' with
  | zero => cases h
  | succ fuel ih =>
      obtain ⟨c, hc, hp, hcase⟩ := mem_filesFrom_succ hw h he
      rcases hcase with ⟨-, l', w'', hrun, he⟩ | ⟨-, rfl⟩
      · exact .head ⟨c, hc, hp⟩ (ih hrun he)
      · exact .single ⟨c, hc, hp⟩

/-- A file that stands at a row is listed under the path of this row only. -/
theorem path_of_mem_filesFrom (hw : w.Sound) (hkind : kind.file ≠ kind.dir) (fuel : Nat)
    {parent : Node} {dir : Path} {l : List (Path × Node)}
    (h : (filesFrom kind fuel parent dir).run w = .ok l w') {e : Path × Node} (he : e ∈ l)
    (hs : Stands w kind parent.id names e.2.id) (hnames : ∀ m ∈ names, Path.IsName m) :
    e.1 = dir.below names := by
  induction fuel generalizing parent dir l w' names with
  | zero => cases h
  | succ fuel ih =>
      obtain ⟨c, hc, hp, hcase⟩ := mem_filesFrom_succ hw h he
      have hup : w.tables.IsParent parent.id c.id := ⟨c, hc, hp⟩
      have hbelow : Relation.ReflTransGen w.tables.IsParent c.id e.2.id := by
        rcases hcase with ⟨-, l', w'', hrun, he⟩ | ⟨-, rfl⟩
        · exact below_of_mem_filesFrom hw fuel hrun he
        · exact .refl
      have first {i : String} {k : NodeKey} (hi : w.Keyed i k) (hk : k.parent = some parent.id)
          (hie : Relation.ReflTransGen w.tables.IsParent i e.2.id) : c.id = i ∧ c.key = k := by
        obtain rfl := only_child hw hup (hi.isParent hk) hbelow hie
        exact ⟨rfl, (Workspace.Keyed.of_node? hc).key_eq hi⟩
      have hchild {name : String} (hname : Path.IsName name) : dir.child name = dir.below [name] :=
        Path.child_name dir hname
      cases hs with
      | @file _ name _ hi =>
          obtain ⟨hid, hk⟩ := first hi rfl .refl
          have htype : c.type = kind.file := congrArg NodeKey.type hk
          rcases hcase with ⟨hdir, -⟩ | ⟨-, rfl⟩
          · exact absurd (htype.symm.trans hdir) hkind
          · rw [show c.name = name from congrArg NodeKey.name hk, hchild (hnames name (.head _))]
      | @dir _ name d _ rest hd hrest =>
          obtain ⟨rfl, hk⟩ := first hd rfl hrest.reflTransGen
          have htype : c.type = kind.dir := congrArg NodeKey.type hk
          rcases hcase with ⟨-, l', w'', hrun, he⟩ | ⟨hfile, -⟩
          · rw [show c.name = name from congrArg NodeKey.name hk,
              hchild (hnames name (.head _))] at hrun
            rw [ih hrun he hrest fun q hq => hnames q (.tail _ hq), Path.below_below]
            rfl
          · exact absurd (hfile.symm.trans htype) hkind

/-- A file that is listed stands at a row, where all that is below belongs to the instance. -/
theorem stands_of_mem_filesFrom (hw : w.Sound) (fuel : Nat) {parent : Node} {dir : Path}
    (hbelow : ∀ i n, Relation.TransGen w.tables.IsParent parent.id i →
      w.tables.node? i = some n → n.instanceId = w.graph.instanceId)
    {l : List (Path × Node)} (h : (filesFrom kind fuel parent dir).run w = .ok l w')
    {e : Path × Node} (he : e ∈ l) : ∃ names, Stands w kind parent.id names e.2.id := by
  induction fuel generalizing parent dir l w' with
  | zero => cases h
  | succ fuel ih =>
      obtain ⟨c, hc, hp, hcase⟩ := mem_filesFrom_succ hw h he
      have hup : w.tables.IsParent parent.id c.id := ⟨c, hc, hp⟩
      have hkeyed {type : NodeType} (ht : c.type = type) :
          w.Keyed c.id ⟨some parent.id, w.graph.instanceId, type, c.name⟩ := by
        refine ⟨c, hc, ?_⟩
        rw [Node.key, hp, hbelow c.id c (.single hup) hc, ht]
      rcases hcase with ⟨hdir, l', w'', hrun, he⟩ | ⟨hfile, rfl⟩
      · obtain ⟨names, hs⟩ := ih (fun i n hi => hbelow i n (.trans (.single hup) hi)) hrun he
        exact ⟨c.name :: names, .dir (hkeyed hdir) hs⟩
      · exact ⟨[c.name], .file (hkeyed hfile)⟩

/-- The files below a node are listed where the steps suffice. -/
theorem filesFrom_run (hw : w.Sound) (kind : FileKind) {fuel : Nat} {parent : Node}
    (h : w.tables.Fits parent.id fuel) (dir : Path) :
    ∃ l, (filesFrom kind fuel parent dir).run w = .ok l w := by
  induction fuel generalizing parent dir with
  | zero => exact absurd rfl h.pos
  | succ fuel ih =>
      have hchildren : (children parent none).run w =
          .ok (w.tables.listNodes (some parent.id) none none) w := rfl
      rw [filesFrom, bind_ok hchildren]
      have hall (c : Node) (hc : c ∈ w.tables.listNodes (some parent.id) none none) : ∃ l,
          (if c.type == kind.dir then filesFrom kind fuel c (dir.child c.name)
          else if c.type == kind.file then return [(dir.child c.name, c)] else return []).run w =
            .ok l w := by
        obtain ⟨hc, hp, -⟩ := mem_listNodes hw.wellFormed hc
        split
        · exact ih (h.child hw.wellFormed ⟨c, hc, hp⟩) _
        · split
          · exact ⟨_, rfl⟩
          · exact ⟨_, rfl⟩
      obtain ⟨found, hfound⟩ := Reader.mapM_run hall
      exact ⟨found.flatten, by rw [bind_ok hfound]; rfl⟩

/-- No node is listed twice: the children are different nodes, and nothing is below two of them. -/
theorem nodup_filesFrom (hw : w.Sound) (fuel : Nat) {parent : Node} {dir : Path}
    {l : List (Path × Node)} (h : (filesFrom kind fuel parent dir).run w = .ok l w') :
    (l.map fun e => e.2.id).Nodup := by
  induction fuel generalizing parent dir l w' with
  | zero => cases h
  | succ fuel ih =>
      obtain ⟨cs, w₁, hcs, h₁⟩ := bind_eq_ok.mp h
      have hcs' : cs = w.tables.listNodes (some parent.id) none none := by cases hcs; rfl
      rw [(reader_children ..).eq hcs] at h₁
      obtain ⟨found, w₂, hfound, h₂⟩ := bind_eq_ok.mp h₁
      cases h₂
      have hall := Reader.forall₂_of_mapM (fun c => .ite (reader_filesFrom kind fuel _ _)
        (.ite (.pure _) (.pure _))) hfound
      have hdistinct : cs.Pairwise fun c d => c.id ≠ d.id := by
        rw [hcs']
        exact ((List.pairwise_map.mp (Tables.nodup_allNodes hw.wellFormed)).filter _).filter _
      have hmem (c : Node) (hc : c ∈ cs) : w.tables.IsParent parent.id c.id := by
        rw [hcs'] at hc
        obtain ⟨hc, hp, -⟩ := mem_listNodes hw.wellFormed hc
        exact ⟨c, hc, hp⟩
      clear hcs hcs' h hfound h₁
      have below {c : Node} {es : List (Path × Node)}
          (hrun : (if c.type == kind.dir then filesFrom kind fuel c (dir.child c.name)
            else if c.type == kind.file then return [(dir.child c.name, c)] else return []).run w =
              .ok es w) : (es.map fun e => e.2.id).Nodup ∧
            ∀ e ∈ es, Relation.ReflTransGen w.tables.IsParent c.id e.2.id := by
        split at hrun
        · exact ⟨ih hrun, fun e he => below_of_mem_filesFrom hw fuel hrun he⟩
        · split at hrun
          · cases hrun
            refine ⟨by simp, fun e he => ?_⟩
            rw [List.mem_singleton.mp he]
          · cases hrun
            exact ⟨by simp, fun e he => by cases he⟩
      induction hall with
      | nil => simp
      | @cons c es cs ess hrun hrest ihc =>
          obtain ⟨hhead, htail⟩ := List.pairwise_cons.mp hdistinct
          rw [List.flatten_cons, List.map_append, List.nodup_append]
          refine ⟨(below hrun).1, ihc htail fun d hd => hmem d (.tail _ hd), ?_⟩
          intro i hi j hj hij
          obtain ⟨e, he, rfl⟩ := List.mem_map.mp hi
          obtain ⟨e', he', rfl⟩ := List.mem_map.mp hj
          obtain ⟨es', hes', he'⟩ := List.mem_flatten.mp he'
          obtain ⟨d, hd, hrun'⟩ := Reader.mem_of_forall₂ hrest hes'
          refine hhead d hd (only_child hw (hmem c (.head _)) (hmem d (.tail _ hd))
            ((below hrun).2 e he) ?_)
          rw [hij]
          exact (below hrun').2 e' he'

theorem fileNodes_run (hw : w.Sound) {root : Node} {P : Path} (hP : root.pathEntry = .path P)
    (kind : FileKind) : ∃ l, (fileNodes root kind).run w = .ok l w := by
  have hbound : depthBound.run w = .ok (w.tables.nodes.length + 1) w := rfl
  obtain ⟨l, hl⟩ := filesFrom_run hw kind (Tables.fits_length w.tables root.id) P
  rw [fileNodes, bind_ok hbound, bind_ok (rootPath_run hP w), bind_ok hl]
  exact ⟨_, rfl⟩

/-- What the files below a root are listed from. -/
theorem fileNodes_eq_ok {root : Node} {P : Path} (hP : root.pathEntry = .path P)
    {l : List (Path × Node)} (h : (fileNodes root kind).run w = .ok l w') :
    ∃ found fuel, (filesFrom kind fuel root P).run w = .ok found w ∧
      l = Sorting.sort (fun a b => Text.charsLe a.1.text b.1.text) found := by
  obtain ⟨fuel, w₁, hf, h₁⟩ := bind_eq_ok.mp h
  rw [reader_depthBound.eq hf, bind_ok (rootPath_run hP w)] at h₁
  obtain ⟨found, w₂, hfound, h₂⟩ := bind_eq_ok.mp h₁
  cases h₂
  rw [(reader_filesFrom ..).eq hfound] at hfound
  exact ⟨found, fuel, hfound, rfl⟩

theorem nodup_fileNodes (hw : w.Sound) {root : Node} {P : Path} (hP : root.pathEntry = .path P)
    {l : List (Path × Node)} (h : (fileNodes root kind).run w = .ok l w') :
    (l.map fun e => e.2.id).Nodup := by
  obtain ⟨found, fuel, hfound, rfl⟩ := fileNodes_eq_ok hP h
  exact ((Sorting.sort_perm found).map _).nodup_iff.mpr (nodup_filesFrom hw fuel hfound)

theorem stands_of_mem_fileNodes (hw : w.Sound) {root : Node} {P : Path}
    (hP : root.pathEntry = .path P)
    (hbelow : ∀ i n, Relation.TransGen w.tables.IsParent root.id i →
      w.tables.node? i = some n → n.instanceId = w.graph.instanceId)
    {l : List (Path × Node)} (h : (fileNodes root kind).run w = .ok l w') {e : Path × Node}
    (he : e ∈ l) : ∃ names, Stands w kind root.id names e.2.id := by
  obtain ⟨found, fuel, hfound, rfl⟩ := fileNodes_eq_ok hP h
  exact stands_of_mem_filesFrom hw fuel hbelow hfound (Sorting.mem_sort.mp he)

theorem path_of_mem_fileNodes (hw : w.Sound) (hkind : kind.file ≠ kind.dir) {root : Node} {P : Path}
    (hP : root.pathEntry = .path P) {l : List (Path × Node)}
    (h : (fileNodes root kind).run w = .ok l w') {e : Path × Node} (he : e ∈ l)
    (hs : Stands w kind root.id names e.2.id) (hnames : ∀ m ∈ names, Path.IsName m) :
    e.1 = P.below names := by
  obtain ⟨found, fuel, hfound, rfl⟩ := fileNodes_eq_ok hP h
  exact path_of_mem_filesFrom hw hkind fuel hfound (Sorting.mem_sort.mp he) hs hnames

end Graph

end IntentBuild
