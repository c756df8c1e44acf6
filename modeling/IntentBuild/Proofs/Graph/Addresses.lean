import IntentBuild.Proofs.Graph.Outcome
import IntentBuild.Proofs.Graph.Rows
import IntentBuild.Proofs.Project
import IntentBuild.Proofs.Text.Order

/-!
# Addresses of files

A row of names has an address below a root, a text, and a text addresses at most one row
(`partsBelow_eq_ok_iff`, `address_injective`).  Making the place of a file makes nodes of the instance
only, and brings at most the row of this file, also when the document of the graph cannot be written
(`ends_placeOf`).

So after any row of such calls on a root with nothing below it, the files below the root, the rows that
were asked for and the texts that address them are in one-to-one correspondence (`Mirrors`).
-/

namespace IntentBuild.Graph

open Op
open Assoc (keys)

variable {w w' v : Workspace} {kind : FileKind} {root : Node} {P : Path} {names parts : List String}
  {full : String}

/-! ## Texts and rows of names -/

/-- A row of names that each can stand in a path and do not lead out of their directory. -/
structure IsRow (names : List String) : Prop where
  /-- There is a name. -/
  nonempty : names ≠ []
  /-- A name is not empty, neither `.` nor `..`, and has no separator. -/
  proper : ∀ n ∈ names, Path.IsName n ∧ n ≠ ".."

/-- The text that addresses a row of names below a root with a path. -/
def address (P : Path) (names : List String) : String :=
  rootText P ++ "/" ++ Text.joinWith "/" names

theorem IsRow.splitAt_joinWith (h : IsRow names) :
    Text.splitAt '/' (Text.joinWith "/" names) = names := by
  obtain ⟨n, ns, rfl⟩ := List.exists_cons_of_ne_nil h.nonempty
  exact Text.splitAt_joinWith n ns fun m hm => (h.proper m hm).1.whole

theorem not_isHollow_iff {n : String} : isHollow n = false ↔ n ≠ "" ∧ n ≠ "." ∧ n ≠ ".." := by
  rw [isHollow, Bool.or_eq_false_iff, Bool.or_eq_false_iff, beq_eq_false_iff_ne,
    beq_eq_false_iff_ne, beq_eq_false_iff_ne, and_assoc]

/-- The parts of a text below a root are the row that it addresses. -/
theorem partsBelow_eq_ok_iff :
    partsBelow (rootText P) full = .ok names ↔ IsRow names ∧ full = address P names := by
  constructor
  · intro h
    unfold partsBelow at h
    dsimp only at h
    split at h
    · rename_i hbegins
      split at h
      · cases h
      · rename_i hall
        obtain rfl := Except.ok.inj h
        refine ⟨⟨?_, fun n hn => ?_⟩, ?_⟩
        · exact fun hnil => Text.splitChars_ne_nil _ _ (List.map_eq_nil_iff.mp hnil)
        · have hhollow : isHollow n = false :=
            Bool.eq_false_iff.mpr fun ht => hall (List.any_eq_true.mpr ⟨n, hn, ht⟩)
          obtain ⟨hempty, hdot, hup⟩ := not_isHollow_iff.mp hhollow
          exact ⟨⟨hempty, hdot, Text.not_mem_of_splitAt hn⟩, hup⟩
        · rw [address, Text.joinWith_splitAt, Text.dropChars]
          obtain ⟨rest, hrest⟩ := List.isPrefixOf_iff_prefix.mp hbegins
          rw [← String.toList_inj, String.toList_append, String.toList_ofList, ← hrest,
            List.drop_left]
    · cases h
  · rintro ⟨hrow, rfl⟩
    rw [address, partsBelow_append, hrow.splitAt_joinWith, if_neg]
    rw [List.any_eq_true]
    rintro ⟨n, hn, hhollow⟩
    have hn := hrow.proper n hn
    rw [not_isHollow_iff.mpr ⟨hn.1.nonempty, hn.1.moves, hn.2⟩] at hhollow
    cases hhollow

theorem address_injective (h : IsRow names) (h' : IsRow parts)
    (heq : address P names = address P parts) : names = parts := by
  have hnames : partsBelow (rootText P) (address P names) = .ok names :=
    partsBelow_eq_ok_iff.mpr ⟨h, rfl⟩
  have hparts : partsBelow (rootText P) (address P names) = .ok parts :=
    partsBelow_eq_ok_iff.mpr ⟨h', heq⟩
  exact Except.ok.inj (hnames.symm.trans hparts)

theorem hasParts_iff (hP : root.pathEntry = .path P) :
    HasParts root full names ↔ IsRow names ∧ full = address P names := by
  rw [← partsBelow_eq_ok_iff]
  constructor
  · rintro ⟨P', hP', h⟩
    cases hP.symm.trans hP'
    exact h
  · exact fun h => ⟨P, hP, h⟩

/-- A text that addresses no row is refused. -/
theorem relativeParts_error (hP : root.pathEntry = .path P)
    (h : ∀ names, IsRow names → full ≠ address P names) :
    ∃ f, ∀ w, (relativeParts root full).run w = .error (.path f) w := by
  cases hparts : partsBelow (rootText P) full with
  | ok names =>
      obtain ⟨hrow, heq⟩ := partsBelow_eq_ok_iff.mp hparts
      exact absurd heq (h names hrow)
  | error f =>
      refine ⟨f, fun w => ?_⟩
      rw [relativeParts, bind_ok (rootPath_run hP w), hparts]
      rfl

/-- The path of a row is spelled by its address, unless the root is the working directory or the root
written with two separators. -/
theorem text_below_eq_address (hP : root.pathEntry = .path P) (h : P.names ≠ [] ∨ P.anchor = .root)
    (hrow : IsRow names) : (P.below names).text = address P names := by
  by_cases hne : P.names = []
  · obtain ⟨anchor, ns⟩ := P
    have ha : anchor = .root := h.resolve_left fun hn => hn hne
    have hn : ns = [] := hne
    subst ha hn
    have hroot : rootText ⟨.root, []⟩ = "" := by decide +kernel
    rw [address, hroot, Path.text, if_neg (by simp [Path.below])]
    rfl
  · rw [Path.text_below hne hrow.nonempty, address, rootText_eq hne (isName_of_pathEntry hP)]

/-! ## Growing -/

/-- Nodes were only made, and those belong to the instance. -/
structure Grows (w w' : Workspace) : Prop where
  /-- No node went or changed. -/
  kept : ∀ {i n}, w.tables.node? i = some n → w'.tables.node? i = some n
  /-- A new node belongs to the instance. -/
  made : ∀ {i n}, w'.tables.node? i = some n →
    w.tables.node? i = some n ∨ w.tables.node? i = none ∧ n.instanceId = w.graph.instanceId
  /-- The instance stays. -/
  instanceId : w'.graph.instanceId = w.graph.instanceId

namespace Grows

theorem refl (w : Workspace) : Grows w w := ⟨id, .inl, rfl⟩

theorem trans (h : Grows w v) (h' : Grows v w') : Grows w w' where
  kept hn := h'.kept (h.kept hn)
  made {i n} hn := by
    rcases h'.made hn with hv | ⟨hv, hi⟩
    · exact h.made hv
    · refine .inr ⟨?_, hi.trans h.instanceId⟩
      cases hw : w.tables.node? i with
      | none => rfl
      | some m => cases hv.symm.trans (h.kept hw)
  instanceId := h'.instanceId.trans h.instanceId

theorem keyed (h : Grows w w') {i : String} {k : NodeKey} (hk : w.Keyed i k) : w'.Keyed i k := by
  obtain ⟨n, hn, hk⟩ := hk
  exact ⟨n, h.kept hn, hk⟩

theorem stands (h : Grows w w') {p i : String} (hs : Stands w kind p names i) :
    Stands w' kind p names i := by
  induction hs with
  | file hk => exact .file (by rw [h.instanceId]; exact h.keyed hk)
  | dir hk _ ih => exact .dir (by rw [h.instanceId]; exact h.keyed hk) ih

/-- A node that is found or made. -/
theorem of_found {parent : Option String} {type : NodeType} {name : String} {json : Option Members}
    {n : Node} (hid : w'.graph.instanceId = w.graph.instanceId)
    (h : Found w.tables ⟨parent, w.graph.instanceId, type, name⟩ json n w'.tables) :
    Grows w w' := by
  generalize ht : w'.tables = t at h
  cases h with
  | old _ => exact ⟨fun hn => by rwa [ht], fun hn => .inl (by rwa [ht] at hn), hid⟩
  | new h hk _ _ _ =>
      obtain ⟨rfl, hfresh, -⟩ := Tables.insertNode_eq_ok h
      have hnode (i : String) : w'.tables.node? i = if i = n.id then some n else w.tables.node? i := by
        rw [ht]
        exact Assoc.get?_set ..
      refine ⟨fun {i m} hm => ?_, fun {i m} hm => ?_, hid⟩
      · rw [hnode, if_neg]
        · exact hm
        · rintro rfl
          exact hfresh (Assoc.mem_keys_of_get? hm)
      · rw [hnode] at hm
        by_cases hi : i = n.id
        · rw [if_pos hi, Option.some.injEq] at hm
          subst hm hi
          exact .inr ⟨Assoc.get?_eq_none_iff.mpr hfresh, congrArg NodeKey.instanceId hk⟩
        · rw [if_neg hi] at hm
          exact .inl hm

/-- What is below a node that nothing was below is new, so it belongs to the instance. -/
theorem below (h : Grows w w') (hw : w.Sound) {p : String}
    (hp : ∀ i, ¬ w.tables.IsParent p i) {i : String}
    (hi : Relation.TransGen w'.tables.IsParent p i) {n : Node} (hn : w'.tables.node? i = some n) :
    n.instanceId = w.graph.instanceId := by
  have fresh {j : String} (hj : Relation.TransGen w'.tables.IsParent p j) :
      w.tables.node? j = none := by
    induction hj with
    | single hpj =>
        obtain ⟨m, hm, hparent⟩ := hpj
        rcases h.made hm with hold | hnew
        · exact absurd ⟨m, hold, hparent⟩ (hp _)
        · exact hnew.1
    | tail _ hqj ih =>
        obtain ⟨m, hm, hparent⟩ := hqj
        rcases h.made hm with hold | hnew
        · exact absurd (hw.wellFormed.parents hold hparent) (Assoc.get?_eq_none_iff.mp ih)
        · exact hnew.1
  rcases h.made hn with hold | hnew
  · cases (fresh hi).symm.trans hold
  · exact hnew.2

end Grows

/-! ## Making places -/

/-- Nodes of the instance were made, and with them no row but one. -/
structure Brings (kind : FileKind) (p : String) (names : List String) (w w' : Workspace) : Prop where
  /-- Only nodes of the instance were made. -/
  grows : Grows w w'
  /-- A row that came is the one below the node. -/
  row : ∀ {q ns i}, Stands w' kind q ns i → Stands w kind q ns i ∨ Stands w' kind p names i

theorem ends_makePlace (hkind : kind.file ≠ kind.dir) (hrow : IsRow names) {parent : Node}
    (hp : parent.id ∈ keys w.tables.nodes) :
    Ends w (makePlace kind parent names)
      (fun n w' => Brings kind parent.id names w w' ∧ w'.tables.node? n.id = some n ∧
        Stands w' kind parent.id names n.id)
      fun w' => w.graph.depth = 0 ∧ ¬ w'.Writable ∧ Brings kind parent.id names w w' := by
  induction names generalizing w parent with
  | nil => exact absurd rfl hrow.nonempty
  | cons name rest ih =>
      intro hw
      have hname : name ≠ "" := (hrow.proper name (.head _)).1.nonempty
      have hparent (p : Node) (h : some parent = some p) : p.id ∈ keys w.tables.nodes :=
        Option.some.inj h ▸ hp
      have hget (type : NodeType) : Ends w (getOrCreate (some parent) type name none) _ _ :=
        ends_getOrCreate hparent hname trivial
      have stored {type : NodeType} {n : Node} {v : Workspace}
          (hid : v.graph.instanceId = w.graph.instanceId) (hf : Found w.tables
            ⟨some parent.id, w.graph.instanceId, type, name⟩ none n v.tables) :
          v.tables.node? n.id = some n ∧
            v.Keyed n.id ⟨some parent.id, v.graph.instanceId, type, name⟩ := by
        obtain ⟨hn, hk⟩ := hf.node? hw.wellFormed
        exact ⟨hn, n, hn, by rw [hk, hid]⟩
      cases rest with
      | nil =>
          have brings {n : Node} {v : Workspace} (hid : v.graph.instanceId = w.graph.instanceId)
              (hf : Found w.tables ⟨some parent.id, w.graph.instanceId, kind.file, name⟩ none n
                v.tables) : Brings kind parent.id [name] w v := by
            refine ⟨.of_found hid hf, fun hs => ?_⟩
            rcases stands_of_found hw hid hf hs with hs | ⟨hi, -⟩
            · exact .inl hs
            · exact .inr (hi ▸ .file (stored hid hf).2)
          refine ((hget kind.file).weaken (fun n v hkeep hf => ?_) fun v hkeep hf => ?_) hw
          · have hid := hkeep.reach.instanceId_eq
            exact ⟨brings hid hf, (stored hid hf).1, .file (stored hid hf).2⟩
          · obtain ⟨h0, hn, n, hf⟩ := hf
            exact ⟨h0, hn, brings hkeep.reach.instanceId_eq hf⟩
      | cons next rest =>
          have brings {n : Node} {v : Workspace} (hid : v.graph.instanceId = w.graph.instanceId)
              (hf : Found w.tables ⟨some parent.id, w.graph.instanceId, kind.dir, name⟩ none n
                v.tables) {q i : String} {ns : List String} (hs : Stands v kind q ns i) :
              Stands w kind q ns i :=
            (stands_of_found hw hid hf hs).resolve_right fun h => hkind h.2.symm
          refine Ends.bind ((hget kind.dir).weaken (fun _ _ _ h => h) fun v hkeep hf => ?_)
            (fun d v hv hkeep hf => ?_) hw
          · obtain ⟨h0, hn, d, hf⟩ := hf
            have hid := hkeep.reach.instanceId_eq
            exact ⟨h0, hn, .of_found hid hf, fun hs => .inl (brings hid hf hs)⟩
          · have hid := hkeep.reach.instanceId_eq
            obtain ⟨hd, hkeyed⟩ := stored hid hf
            have hrest : IsRow (next :: rest) :=
              ⟨List.cons_ne_nil _ _, fun n hn => hrow.proper n (.tail _ hn)⟩
            have lift {v' : Workspace} (hb : Brings kind d.id (next :: rest) v v') {i : String}
                (hs : Stands v' kind d.id (next :: rest) i) :
                Stands v' kind parent.id (name :: next :: rest) i :=
              .dir (by rw [hb.grows.instanceId]; exact hb.grows.keyed hkeyed) hs
            have whole {v' : Workspace} (hb : Brings kind d.id (next :: rest) v v') :
                Brings kind parent.id (name :: next :: rest) w v' :=
              ⟨(Grows.of_found hid hf).trans hb.grows, fun hs =>
                (hb.row hs).imp (brings hid hf) (lift hb)⟩
            refine (ih hrest (Assoc.mem_keys_of_get? hd)).weaken (fun n v' _ h => ?_) fun v' _ h => ?_
            · obtain ⟨hb, hn, hs⟩ := h
              exact ⟨whole hb, hn, lift hb hs⟩
            · obtain ⟨h0, hn, hb⟩ := h
              exact ⟨hkeep.depth ▸ h0, hn, whole hb⟩

/-- The place of a row that is addressed is made, unless the document cannot be written. -/
theorem ends_placeOf (hP : root.pathEntry = .path P) (hkind : kind.file ≠ kind.dir)
    (hrow : IsRow names) (hroot : root.id ∈ keys w.tables.nodes) :
    Ends w (placeOf root (address P names) kind)
      (fun n w' => Brings kind root.id names w w' ∧ w'.tables.node? n.id = some n ∧
        Stands w' kind root.id names n.id)
      fun w' => w.graph.depth = 0 ∧ ¬ w'.Writable ∧ Brings kind root.id names w w' :=
  .reads (((hasParts_iff hP).mpr ⟨hrow, rfl⟩).run w) (ends_makePlace hkind hrow hroot)

/-! ## Rows of calls -/

/-- Calls that make places below a root, the last one first, each with what came of it. -/
inductive Places (root : Node) (kind : FileKind) (w : Workspace) :
    List (String × EStateM.Result Failure Workspace Node) → Workspace → Prop
  | none : Places root kind w [] w
  | call {calls : List (String × EStateM.Result Failure Workspace Node)} {v : Workspace}
      (h : Places root kind w calls v) (full : String) :
      Places root kind w ((full, (placeOf root full kind).run v) :: calls)
        ((placeOf root full kind).after v)

/-- What is kept of calls that made places below a root. -/
structure Placed (root : Node) (P : Path) (kind : FileKind) (w : Workspace)
    (calls : List (String × EStateM.Result Failure Workspace Node)) (w' : Workspace) : Prop where
  /-- As many transactions are open. -/
  keeps : Keeps w w'
  /-- Nodes of the instance were made. -/
  grows : Grows w w'
  /-- Every row below the root was asked for. -/
  asked : ∀ {names i}, Stands w' kind root.id names i →
    IsRow names ∧ ∃ r, (address P names, r) ∈ calls
  /-- A call that gave a node addressed the row where this node stands. -/
  given : ∀ {full n v}, (full, .ok n v) ∈ calls → ∃ names, IsRow names ∧ full = address P names ∧
    w'.tables.node? n.id = some n ∧ Stands w' kind root.id names n.id
  /-- A call that failed addressed no row, or the document could not be written. -/
  failed : ∀ {full e v}, (full, .error e v) ∈ calls →
    (∃ f, e = .path f) ∧ (∀ names, IsRow names → full ≠ address P names) ∨
      w.graph.depth = 0 ∧ ¬ v.Writable

section

variable {calls : List (String × EStateM.Result Failure Workspace Node)}

/-- Before the first call nothing stands below the root. -/
theorem Placed.start (hbelow : ∀ i, ¬ w.tables.IsParent root.id i) : Placed root P kind w [] w := by
  refine ⟨.refl w, .refl w, fun hs => ?_, fun h => (nomatch h), fun h => nomatch h⟩
  cases hs with
  | file hk => exact absurd (hk.isParent rfl) (hbelow _)
  | dir hk _ => exact absurd (hk.isParent rfl) (hbelow _)

/-- A call that brings a row to its place is one more of these calls. -/
theorem Placed.brought {u : Workspace} {r : EStateM.Result Failure Workspace Node}
    (h : Placed root P kind w calls v) (hkeep : Keeps v u) (hu : u.Sound) (hrow : IsRow names)
    (hb : Brings kind root.id names v u)
    (hgiven : ∀ n x, r = .ok n x → u.tables.node? n.id = some n ∧ Stands u kind root.id names n.id)
    (hfailed : ∀ e x, r = .error e x → v.graph.depth = 0 ∧ ¬ x.Writable) :
    Placed root P kind w ((address P names, r) :: calls) u := by
  refine ⟨h.keeps.trans hkeep, h.grows.trans hb.grows, fun hs => ?_, fun hmem => ?_, fun hmem => ?_⟩
  · rcases hb.row hs with hs' | hs'
    · obtain ⟨hns, r', hmem⟩ := h.asked hs'
      exact ⟨hns, r', .tail _ hmem⟩
    · obtain rfl := hs.names_eq hu hs'
      exact ⟨hrow, r, .head _⟩
  · rcases List.mem_cons.mp hmem with heq | hmem
    · obtain ⟨rfl, hr⟩ := Prod.mk.inj heq
      exact ⟨names, hrow, rfl, hgiven _ _ hr.symm⟩
    · obtain ⟨ns, hns, heq, hn, hs⟩ := h.given hmem
      exact ⟨ns, hns, heq, hb.grows.kept hn, hb.grows.stands hs⟩
  · rcases List.mem_cons.mp hmem with heq | hmem
    · obtain ⟨hdepth, hnot⟩ := hfailed _ _ (Prod.mk.inj heq).2.symm
      exact .inr ⟨h.keeps.depth ▸ hdepth, hnot⟩
    · exact h.failed hmem

/-- A call with the address of a row brings the row to its place. -/
theorem Placed.call_row (h : Placed root P kind w calls v) (hw : w.Sound)
    (hP : root.pathEntry = .path P) (hkind : kind.file ≠ kind.dir) (hroot : root.id ∈ keys w.tables.nodes)
    (hrow : IsRow names) :
    Placed root P kind w ((address P names, (placeOf root (address P names) kind).run v) :: calls)
      ((placeOf root (address P names) kind).after v) := by
  obtain ⟨m, hm⟩ := Assoc.exists_get?_of_mem_keys hroot
  have hv := h.keeps.reach.sound hw
  have hend := ends_placeOf hP hkind hrow (Assoc.mem_keys_of_get? (h.grows.kept hm)) hv
  unfold Op.after
  cases hrun : (placeOf root (address P names) kind).run v with
  | ok n u =>
      rw [hrun] at hend
      obtain ⟨hkeep, hb, hstands⟩ := hend
      refine h.brought hkeep (hkeep.reach.sound hv) hrow hb (fun n' x hr => ?_) fun e x hr => nomatch hr
      cases hr
      exact hstands
  | error e u =>
      rw [hrun] at hend
      obtain ⟨hkeep, hdepth, hnot, hb⟩ := hend
      refine h.brought hkeep (hkeep.reach.sound hv) hrow hb (fun n x hr => nomatch hr) fun e' x hr => ?_
      cases hr
      exact ⟨hdepth, hnot⟩

/-- A call with any other text changes nothing. -/
theorem Placed.call_refused (h : Placed root P kind w calls v) (hP : root.pathEntry = .path P)
    (hnone : ∀ names, IsRow names → full ≠ address P names) :
    Placed root P kind w ((full, (placeOf root full kind).run v) :: calls)
      ((placeOf root full kind).after v) := by
  obtain ⟨f, hf⟩ := relativeParts_error hP hnone
  have hrun : (placeOf root full kind).run v = .error (.path f) v := by
    rw [placeOf, bind_error (hf v)]
  have hafter : (placeOf root full kind).after v = v := by rw [Op.after, hrun]
  rw [hafter, hrun]
  refine ⟨h.keeps, h.grows, fun hs => ?_, fun hmem => ?_, fun hmem => ?_⟩
  · obtain ⟨hns, r', hmem⟩ := h.asked hs
    exact ⟨hns, r', .tail _ hmem⟩
  · rcases List.mem_cons.mp hmem with heq | hmem
    · cases heq
    · exact h.given hmem
  · rcases List.mem_cons.mp hmem with heq | hmem
    · cases heq
      exact .inl ⟨⟨f, rfl⟩, hnone⟩
    · exact h.failed hmem

theorem Places.placed (h : Places root kind w calls w') (hw : w.Sound) (hP : root.pathEntry = .path P)
    (hkind : kind.file ≠ kind.dir) (hroot : root.id ∈ keys w.tables.nodes)
    (hbelow : ∀ i, ¬ w.tables.IsParent root.id i) : Placed root P kind w calls w' := by
  induction h with
  | none => exact .start hbelow
  | call _ full ih =>
      by_cases haddress : ∃ names, IsRow names ∧ full = address P names
      · obtain ⟨names, hrow, rfl⟩ := haddress
        exact ih.call_row hw hP hkind hroot hrow
      · exact ih.call_refused hP fun names hrow heq => haddress ⟨names, hrow, heq⟩

end

/-! ## The correspondence -/

/-- Addresses, nodes and paths below a root correspond to each other after calls that made places. -/
structure Mirrors (root : Node) (P : Path) (kind : FileKind)
    (calls : List (String × EStateM.Result Failure Workspace Node)) (w : Workspace) : Prop where
  /-- A text is accepted exactly when it addresses a row of names. -/
  accepts : ∀ full, (∃ s, (relativePath root full).run w = .ok s w) ↔
    ∃ names, IsRow names ∧ full = address P names
  /-- A text that is refused makes nothing. -/
  refuses : ∀ {full v f v'}, (placeOf root full kind).run v = .error (.path f) v' → v' = v
  /-- Any other text is given a node, unless the document cannot be written. -/
  made : ∀ {full e v}, (full, .error e v) ∈ calls →
    (∃ f, e = .path f) ∧ (∀ names, IsRow names → full ≠ address P names) ∨
      w.graph.depth = 0 ∧ ¬ v.Writable
  /-- Two texts were given one node exactly when they are equal. -/
  same : ∀ {full full' n n' v v'}, (full, .ok n v) ∈ calls → (full', .ok n' v') ∈ calls →
    (n = n' ↔ full = full')
  /-- A search changes nothing, finds what was given, and finds only where something was asked for. -/
  finds : ∀ {names}, IsRow names → ∃ o,
    (findPlaceOf root (address P names) kind).run w = .ok o w ∧
      (∀ n v, (address P names, .ok n v) ∈ calls → o = some n) ∧
      ∀ n, o = some n → (∃ v, (address P names, .ok n v) ∈ calls) ∨
        ∃ e v, (address P names, .error e v) ∈ calls ∧ ¬ v.Writable
  /-- The files are listed once each, in order, under the paths of their rows. -/
  lists : ∃ l, (fileNodes root kind).run w = .ok l w ∧
    l.Pairwise (fun a b => Text.charsLe a.1.text b.1.text = true) ∧ (l.map Prod.fst).Nodup ∧
    ∀ p n, (p, n) ∈ l ↔ ∃ names, IsRow names ∧ p = P.below names ∧
      (findPlaceOf root (address P names) kind).run w = .ok (some n) w
  /-- The path of a row is spelled by its address. -/
  spells : P.names ≠ [] ∨ P.anchor = .root → ∀ {names}, IsRow names →
    (P.below names).text = address P names

section

variable {calls : List (String × EStateM.Result Failure Workspace Node)}

/-- A call that is refused for its path changes nothing. -/
theorem eq_of_placeOf_refused {f : PathFault} (hP : root.pathEntry = .path P)
    (h : (placeOf root full kind).run v = .error (.path f) w') : w' = v := by
  by_cases haddress : ∃ names, IsRow names ∧ full = address P names
  · obtain ⟨names, hrow, rfl⟩ := haddress
    exact absurd ⟨f, rfl⟩ ((avoids_placeOf ((hasParts_iff hP).mpr ⟨hrow, rfl⟩) kind).out h)
  · obtain ⟨f', hf⟩ := relativeParts_error hP fun names hrow heq => haddress ⟨names, hrow, heq⟩
    rw [placeOf, bind_error (hf v)] at h
    cases h
    rfl

/-- The search for a row finds exactly the node that stands there. -/
theorem Placed.search (h : Placed root P kind w calls w') (hw : w.Sound)
    (hP : root.pathEntry = .path P) (hrow : IsRow names) :
    ∃ o, (findPlaceOf root (address P names) kind).run w' = .ok o w' ∧ ∀ n, o = some n ↔
      w'.tables.node? n.id = some n ∧ Stands w' kind root.id names n.id := by
  have hw' := h.keeps.reach.sound hw
  have hsearch : ∃ o, (findPlaceOf root (address P names) kind).run w' = .ok o w' ∧ _ :=
    findPlaceOf_run hw' ((hasParts_iff hP).mpr ⟨hrow, rfl⟩)
  obtain ⟨o, hrun, hnode, hstands⟩ := hsearch
  refine ⟨o, hrun, fun n => ⟨fun ho => ⟨hnode n ho, (hstands n.id).mp ⟨n, ho, rfl⟩⟩, ?_⟩⟩
  rintro ⟨hn, hs⟩
  obtain ⟨m, ho, hid⟩ := (hstands n.id).mpr hs
  have hm := hnode m ho
  rw [hid, hn, Option.some.injEq] at hm
  rw [ho, hm]

/-- A search finds what was given, and only where something was asked for. -/
theorem Placed.finds (h : Placed root P kind w calls w') (hw : w.Sound) (hP : root.pathEntry = .path P)
    (hrow : IsRow names) : ∃ o, (findPlaceOf root (address P names) kind).run w' = .ok o w' ∧
      (∀ n v, (address P names, .ok n v) ∈ calls → o = some n) ∧
      ∀ n, o = some n → (∃ v, (address P names, .ok n v) ∈ calls) ∨
        ∃ e v, (address P names, .error e v) ∈ calls ∧ ¬ v.Writable := by
  have hw' := h.keeps.reach.sound hw
  obtain ⟨o, hrun, ho⟩ := h.search hw hP hrow
  refine ⟨o, hrun, fun n v hmem => ?_, fun n hn => ?_⟩
  · obtain ⟨ns, hns, heq, hn, hs⟩ := h.given hmem
    obtain rfl := address_injective hrow hns heq
    exact (ho n).mpr ⟨hn, hs⟩
  · obtain ⟨hn, hs⟩ := (ho n).mp hn
    obtain ⟨-, r, hmem⟩ := h.asked hs
    cases r with
    | ok m v =>
        obtain ⟨ns, hns, heq, hm, hs'⟩ := h.given hmem
        obtain rfl := address_injective hrow hns heq
        rw [← hs.unique hw' hs', hn, Option.some.injEq] at hm
        exact .inl ⟨v, hm ▸ hmem⟩
    | error e v =>
        rcases h.failed hmem with ⟨-, hnone⟩ | ⟨-, hnot⟩
        · exact absurd rfl (hnone names hrow)
        · exact .inr ⟨e, v, hmem, hnot⟩

/-- The files are listed once each, in order, under the paths of the rows where they stand. -/
theorem Placed.lists (h : Placed root P kind w calls w') (hw : w.Sound) (hP : root.pathEntry = .path P)
    (hkind : kind.file ≠ kind.dir) (hbelow : ∀ i, ¬ w.tables.IsParent root.id i) :
    ∃ l, (fileNodes root kind).run w' = .ok l w' ∧
      l.Pairwise (fun a b => Text.charsLe a.1.text b.1.text = true) ∧ (l.map Prod.fst).Nodup ∧
      ∀ p n, (p, n) ∈ l ↔ ∃ names, IsRow names ∧ p = P.below names ∧
        (findPlaceOf root (address P names) kind).run w' = .ok (some n) w' := by
  have hw' := h.keeps.reach.sound hw
  have hnames {ns : List String} (hrow : IsRow ns) : ∀ n ∈ ns, Path.IsName n :=
    fun n hn => (hrow.proper n hn).1
  obtain ⟨l, hl⟩ := fileNodes_run hw' hP kind
  have hinstance (i : String) (n : Node) (hi : Relation.TransGen w'.tables.IsParent root.id i)
      (hn : w'.tables.node? i = some n) : n.instanceId = w'.graph.instanceId :=
    (h.grows.below hw hbelow hi hn).trans h.grows.instanceId.symm
  have row {e : Path × Node} (he : e ∈ l) : ∃ ns, IsRow ns ∧ e.1 = P.below ns ∧
      w'.tables.node? e.2.id = some e.2 ∧ Stands w' kind root.id ns e.2.id := by
    obtain ⟨ns, hs⟩ := stands_of_mem_fileNodes hw' hP hinstance hl he
    obtain ⟨hrow, -⟩ := h.asked hs
    exact ⟨ns, hrow, path_of_mem_fileNodes hw' hkind hP hl he hs (hnames hrow),
      (mem_fileNodes hw' hl he).1, hs⟩
  refine ⟨l, hl, ?_, ?_, fun p n => ⟨fun he => ?_, ?_⟩⟩
  · obtain ⟨found, fuel, -, rfl⟩ := fileNodes_eq_ok hP hl
    refine Sorting.pairwise_sort ?_ ?_ found
    · exact fun _ _ _ => Text.charsLe_trans
    · exact fun _ _ => Text.charsLe_total _ _
  · have hids := List.pairwise_map.mp (nodup_fileNodes hw' hP hl)
    refine List.pairwise_map.mpr (hids.imp_of_mem fun ha hb hne hpath => hne ?_)
    obtain ⟨ns, -, hp, -, hs⟩ := row ha
    obtain ⟨ns', -, hp', -, hs'⟩ := row hb
    have hnames : P.below ns = P.below ns' := hp.symm.trans (hpath.trans hp')
    obtain rfl := List.append_cancel_left (congrArg Path.names hnames)
    exact hs.unique hw' hs'
  · obtain ⟨ns, hrow, hp, hn, hs⟩ := row he
    obtain ⟨o, hrun, ho⟩ := h.search hw hP hrow
    exact ⟨ns, hrow, hp, by rw [hrun, (ho n).mpr ⟨hn, hs⟩]⟩
  · rintro ⟨ns, hrow, rfl, hfind⟩
    obtain ⟨o, hrun, ho⟩ := h.search hw hP hrow
    rw [hrun] at hfind
    cases hfind
    obtain ⟨hn, hs⟩ := (ho n).mp rfl
    exact mem_fileNodes_of_stands hw' hkind hP hl hn hs (hnames hrow)

/-- After any row of calls that make places below a root with nothing below it, the addresses that were
accepted, the nodes that were given and the paths that are listed correspond to each other. -/
theorem mirrors_of_places (hw : w.Sound) (hroot : w.tables.node? root.id = some root)
    (hP : root.pathEntry = .path P) (hkind : kind.file ≠ kind.dir)
    (hbelow : ∀ i, ¬ w.tables.IsParent root.id i) (h : Places root kind w calls w') :
    Mirrors root P kind calls w' := by
  have hplaced := h.placed hw hP hkind (Assoc.mem_keys_of_get? hroot) hbelow
  have hw' := hplaced.keeps.reach.sound hw
  refine { accepts := ?_, refuses := eq_of_placeOf_refused hP, made := ?_, same := ?_,
           finds := hplaced.finds hw hP, lists := hplaced.lists hw hP hkind hbelow,
           spells := fun hr _ hrow => text_below_eq_address hP hr hrow }
  · intro full
    constructor
    · rintro ⟨s, hs⟩
      obtain ⟨parts, hparts, -⟩ := relativePath_eq_ok hs
      exact ⟨parts, (hasParts_iff hP).mp hparts⟩
    · rintro ⟨names, hrow⟩
      have hrun := ((hasParts_iff hP).mpr hrow).run w'
      exact ⟨_, by rw [relativePath, bind_ok hrun]; rfl⟩
  · intro full e v hmem
    exact (hplaced.failed hmem).imp_right fun hf => ⟨hplaced.keeps.depth.trans hf.1, hf.2⟩
  · intro full full' n n' v v' hmem hmem'
    obtain ⟨ns, hns, rfl, hn, hs⟩ := hplaced.given hmem
    obtain ⟨ns', hns', rfl, hn', hs'⟩ := hplaced.given hmem'
    constructor
    · rintro rfl
      rw [hs.names_eq hw' hs']
    · intro heq
      obtain rfl := address_injective hns hns' heq
      rw [← hs.unique hw' hs', hn, Option.some.injEq] at hn'
      exact hn'

/-- A root of intent files in an empty graph, at a path. -/
def rootAt (path : String) : Op Node :=
  getOrCreate none .intentRoot "Intent" (some [("path", .str path)])

/-- Three calls on a root: two files share a directory, and the text of the third one is refused. -/
theorem mirrors_of_places_sample : ∃ root w calls w', (rootAt "/d").run Project.blank = .ok root w ∧
    Places root intentKind w calls w' ∧ calls.map Prod.fst = ["/d/../c.md", "/d/a/c.md", "/d/a/b.md"] ∧
      Mirrors root (.ofText "/d") intentKind calls w' := by
  have hok : (rootAt "/d").gives Project.blank (fun n w =>
      (w.tables.allNodes.all fun m => m.parent != some n.id) &&
        Project.keepsPath n (.ofText "/d")) = true := by decide +kernel
  obtain ⟨root, w, hrun, htest⟩ := gives_eq_true.mp hok
  rw [Bool.and_eq_true, List.all_eq_true] at htest
  obtain ⟨hchildren, hpath⟩ := htest
  obtain ⟨hreach, hfound⟩ := (runs_getOrCreate (A := Event.Any) fun _ _ _ _ => trivial).ok
    Project.sound_blank hrun
  have hw := hreach.sound Project.sound_blank
  have hbelow (i : String) : ¬ w.tables.IsParent root.id i := by
    rintro ⟨n, hn, hp⟩
    have := hchildren n (List.mem_map.mpr ⟨_, Assoc.mem_of_get? hn, rfl⟩)
    rw [hp, bne_self_eq_false] at this
    cases this
  have hstart : Places root intentKind w [] w := .none
  have hplaces := ((hstart.call "/d/a/b.md").call "/d/a/c.md").call "/d/../c.md"
  refine ⟨root, w, _, _, hrun, hplaces, by simp only [List.map_cons, List.map_nil], ?_⟩
  exact mirrors_of_places hw (hfound.node? Project.sound_blank.wellFormed).1
    (Project.pathEntry_of_keepsPath hpath) (by decide) hbelow hplaces

/-- Below the root that is written with two separators, a file is not listed under the path that it was
made for: the path keeps both separators, and the address has one. -/
theorem not_listed_below_double : ∃ root w n w' l,
    (rootAt "//").run Project.blank = .ok root w ∧
      (placeOf root "/a.md" intentKind).run w = .ok n w' ∧
        (fileNodes root intentKind).run w' = .ok l w' ∧
          l.map (fun e => (e.1.text, e.2.id)) = [("//a.md", n.id)] ∧
            ∀ e ∈ l, e.1 ≠ .ofText "/a.md" := by
  have hok : (rootAt "//" >>= fun root => placeOf root "/a.md" intentKind >>= fun n =>
      fileNodes root intentKind >>= fun l => pure (root, n, l)).gives Project.blank (fun r _ =>
        r.2.2.map (fun e => (e.1.text, e.2.id)) == [("//a.md", r.2.1.id)] &&
          r.2.2.all fun e => e.1 != .ofText "/a.md") = true := by decide +kernel
  obtain ⟨⟨root, n, l⟩, w₃, hrun, htest⟩ := gives_eq_true.mp hok
  obtain ⟨root, w, hroot, h₁⟩ := bind_eq_ok.mp hrun
  obtain ⟨n, w', hplace, h₂⟩ := bind_eq_ok.mp h₁
  obtain ⟨l, w₂, hlist, h₃⟩ := bind_eq_ok.mp h₂
  cases h₃
  rw [Bool.and_eq_true, beq_iff_eq, List.all_eq_true] at htest
  rw [(reader_fileNodes root intentKind).eq hlist] at hlist
  exact ⟨root, w, n, w', l, hroot, hplace, hlist, htest.1, fun e he => by simpa using htest.2 e he⟩

end

end IntentBuild.Graph
