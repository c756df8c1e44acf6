import IntentBuild.Proofs.Graph.Outcome
import IntentBuild.Proofs.Instance.Forgery

/-!
# Contents and their digests

From the first opening of a graph on, every node has the digests of what it holds, and none for what it
does not hold (`Workspace.contents_digested`).  What is asked for may fail halfway, and the graph may be
opened again from the document that the store wrote.  Changing what a node holds changes the parts that
are asked for, their digests and the time of the change, and nothing else in the graph.
-/

namespace IntentBuild

open Op

/-- A row is put in the place of the one with its key. -/
theorem Assoc.map_snd_set {α : Type} {m : List (String × α)} (hm : Proper m) {k : String}
    (hk : k ∈ keys m) (v : α) :
    (set k v m).map Prod.snd = m.map fun e => if e.1 = k then v else e.2 := by
  induction m with
  | nil => cases hk
  | cons e m ih =>
      obtain ⟨k', v'⟩ := e
      have hm := proper_cons.mp hm
      rw [set]
      split
      · rename_i h
        subst h
        refine (List.cons.injEq ..).mpr ⟨(if_pos rfl).symm, List.map_congr_left fun e he => ?_⟩
        have hkey : e.1 ∈ keys m := mem_keys_of_mem he
        exact (if_neg fun (h : e.1 = k') => hm.1 (h ▸ hkey)).symm
      · rename_i h
        have hk : k ∈ keys m := (List.mem_cons.mp hk).resolve_left (Ne.symm h)
        exact (List.cons.injEq ..).mpr ⟨(if_neg h).symm, ih hm.2 hk⟩

/-- A node is put in the place of the one with its identifier, and all else stays as it is. -/
structure Tables.Exchanges (t : Tables) (new : Node) (t' : Tables) : Prop where
  /-- The other nodes stay, in their order. -/
  nodes : t'.allNodes = t.allNodes.map fun n => if n.id = new.id then new else n
  /-- All but the nodes stays. -/
  rest : { t' with nodes := t.nodes } = t

theorem Tables.exchanges_putNode {t : Tables} {old new : Node} (ht : t.WellFormed)
    (ho : t.node? new.id = some old) : t.Exchanges new (t.putNode new) where
  nodes := by
    rw [allNodes, putNode, Assoc.map_snd_set ht.nodes.proper (Assoc.mem_keys_of_get? ho), allNodes,
      List.map_map]
    refine List.map_congr_left fun e he => ?_
    have hid : e.2.id = e.1 := ht.nodes.owned (Assoc.get?_of_mem ht.nodes.proper he)
    simp only [Function.comp_apply, hid]
  rest := rfl

/-- There is a digest exactly of what the node holds. -/
theorem Node.Digested.isNone_eq {n : Node} (h : n.Digested) :
    n.contentHash.isNone = n.content.isNone ∧ n.jsonHash.isNone = n.json.isNone := by
  obtain ⟨hcontent, hjson⟩ := h
  refine ⟨by rw [hcontent, Option.isNone_map], ?_⟩
  unfold Graph.membersHash at hjson
  split at hjson
  · rename_i hn
    rw [← Except.ok.inj hjson, hn]
    rfl
  · rename_i ms hn
    split at hjson
    · rw [← Except.ok.inj hjson, hn]
      rfl
    · cases hjson

namespace Graph

variable {w : Workspace}

/-- The content of a node is changed, and nothing else, or nothing at all is changed. -/
theorem ends_setContent_exchanges (n : Node) (content : Change String) (json : Change Members)
    (stamp : Change Stamp) :
    Ends w (setContent n content json stamp)
      (fun new w' => ∃ old, w.tables.node? n.id = some old ∧ Revised content json stamp old new ∧
        w.tables.Exchanges new w'.tables)
      fun w' => w'.tables = w.tables ∨ w.graph.depth = 0 ∧ ∃ old new,
        w.tables.node? n.id = some old ∧ Revised content json stamp old new ∧
          w.tables.Exchanges new w'.tables := by
  intro hw
  cases hh : membersHash json.value? with
  | error e =>
      have hrun : (setContent n content json stamp).run w = .error e w := by
        rw [setContent, hh]
        rfl
      rw [hrun]
      exact ⟨.refl w, .inl rfl⟩
  | ok hash =>
      cases ho : w.tables.node? n.id with
      | none =>
          refine Ends.reads (a := hash) (by rw [hh]; rfl)
            (.reader (reader_require _) (.inl rfl) fun old hold => ?_) hw
          rw [require_eq_ok hold] at ho
          cases ho
      | some old =>
          have hexchanges {new : Node} {t : Tables} (hr : Revised content json stamp old new)
              (ht : t = w.tables.putNode new) : w.tables.Exchanges new t := by
            have hid : new.id = n.id := hr.id.trans (hw.wellFormed.nodes.owned ho)
            exact ht ▸ Tables.exchanges_putNode hw.wellFormed (hid ▸ ho)
          refine (ends_setContent ho (membersHash_eq_ok.mp ⟨hash, hh⟩)).weaken ?_ ?_ hw
          · rintro new w' - ⟨hr, ht⟩
            exact ⟨old, rfl, hr, hexchanges hr ht⟩
          · rintro w' - ⟨hd, new, hr, ht⟩
            exact .inr ⟨hd, old, new, rfl, hr, hexchanges hr ht⟩

end Graph

namespace Workspace

variable {w : Workspace}

/-- Every node has the digests of what it holds, and none for what it does not hold.  Changing what a
node holds changes the parts that are asked for, their digests and the time of the change, and nothing
else.  Where it fails, it changes nothing, or the document could not be written. -/
theorem contents_digested (h : Lived Anything w) :
    (∀ n ∈ w.tables.allNodes, n.Digested ∧ n.contentHash.isNone = n.content.isNone ∧
      n.jsonHash.isNone = n.json.isNone) ∧
    ∀ (i : String) (n : Node) (content : Change String) (json : Change Members)
      (stamp : Change Stamp),
      match (Graph.setContent n content json stamp).run (w.serve i) with
      | .ok new w' => ∃ old, w.tables.node? n.id = some old ∧
          Graph.Revised content json stamp old new ∧ w.tables.Exchanges new w'.tables
      | .error _ w' => w'.tables = w.tables ∨ w.graph.depth = 0 ∧ ∃ old new,
          w.tables.node? n.id = some old ∧ Graph.Revised content json stamp old new ∧
            w.tables.Exchanges new w'.tables := by
  have hs := h.steady_of_anything
  refine ⟨fun n hn => ?_, fun i n content json stamp => ?_⟩
  · have hdigested := hs.digested ((Tables.mem_allNodes hs.sound.wellFormed).mp hn)
    exact ⟨hdigested, hdigested.isNone_eq⟩
  · have hend := Graph.ends_setContent_exchanges (w := w.serve i) n content json stamp
      (hs.sound.serve i)
    cases hx : (Graph.setContent n content json stamp).run (w.serve i) with
    | ok new w' =>
        rw [hx] at hend
        exact hend.2
    | error e w' =>
        rw [hx] at hend
        exact hend.2

/-- A new project has four nodes with their digests, and the first one can be given a content. -/
theorem contents_digested_settled : settled.tables.allNodes.length = 4 ∧
    (∀ n ∈ settled.tables.allNodes, n.Digested) ∧ ∃ n old new, ∃ w' : Workspace,
      (Graph.setContent n (.put (some "x")) .keep .keep).run (settled.serve "default") = .ok new w' ∧
        Graph.Revised (.put (some "x")) .keep .keep old new ∧
          settled.tables.Exchanges new w'.tables := by
  -- Over any workspace: on a closed one the run would be evaluated.
  have hchange {w : Workspace} (hw : Lived Anything w) {n new : Node} {w' : Workspace}
      (hrun : (Graph.setContent n (.put (some "x")) .keep .keep).run (w.serve "default") =
        .ok new w') : ∃ old, Graph.Revised (.put (some "x")) .keep .keep old new ∧
          w.tables.Exchanges new w'.tables := by
    have hchange := (contents_digested hw).2 "default" n (.put (some "x")) .keep .keep
    rw [hrun] at hchange
    exact hchange.imp fun _ h => h.2
  obtain ⟨hlength, htest⟩ : settled.tables.allNodes.length = 4 ∧ settled.withFirst (fun n =>
      (Graph.setContent n (.put (some "x")) .keep .keep).gives (settled.serve "default")
        fun _ _ => true) = true := by decide +kernel
  obtain ⟨n, -, hgives⟩ := withFirst_eq_true lived_settled.steady_of_anything.sound htest
  obtain ⟨new, w', hrun, -⟩ := gives_eq_true.mp hgives
  obtain ⟨old, hrevised, hexchanges⟩ := hchange lived_settled hrun
  exact ⟨hlength, fun n hn => ((contents_digested lived_settled).1 n hn).1, n, old, new, w',
    hrun, hrevised, hexchanges⟩

/-- A graph that is opened from another document than that of the store may have a content without its
digest. -/
theorem content_without_digest : Lived Anything overwritten ∧
    ∃ w, (openGraph overwritten.graph.root "default").run overwritten = .ok ⟨⟩ w ∧
      ∃ n ∈ w.tables.allNodes, n.content = some "x" ∧ ¬ n.Digested := by
  obtain ⟨w, hrun, n, hn, hcontent, hhash, -⟩ := forged
  refine ⟨lived_overwritten, w, hrun, n, hn, hcontent, fun h => ?_⟩
  have hdigest := h.content
  rw [hcontent, hhash] at hdigest
  cases hdigest

end Workspace

end IntentBuild
