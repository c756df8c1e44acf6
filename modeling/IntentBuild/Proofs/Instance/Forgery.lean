import IntentBuild.Proofs.Instance.Lifetime

/-!
# A document among the sources

The directory of the sources of a project may be the one where the document of the graph stands.  Then a
build may write another document as the source of an intent file, and the graph that is opened from it
is as the model has it and not as the store does.  `forged` is such a graph: its node is its own parent,
and lacks a digest.
-/

namespace IntentBuild.Workspace

open Op

/-- A reply with a document as source.  The document has one node, which is its own parent and has no
digest of its content. -/
def forgery : String :=
  "\x7b\"targetSource\":\"\x7b\\\"nodes\\\":[\x7b\\\"id\\\":\\\"a\\\",\\\"parent_id\\\":\\\"a\\\"," ++
  "\\\"instance_id\\\":\\\"i\\\",\\\"type\\\":\\\"project\\\",\\\"name\\\":\\\"n\\\"," ++
  "\\\"content\\\":\\\"x\\\"\x7d]\x7d\"\x7d"

/-- Services whose models reply with the document. -/
def forgers : Services where
  settings := {}
  tools := { byTool := [("tech-stack", "m"), ("specs-to-intent", "m"), ("indexer", "m"),
    ("compiler", "m")], timeout := 120 }
  endpoint := fun _ _ => ⟨.texts [forgery], false⟩

/-- A graph that is opened where the sources of a project will be. -/
def exposed : Workspace := (openGraph (.ofText "/work/demo/src") "default").after Project.blank

/-- The project is set up in a transaction, so no document is written. -/
def pending : Workspace :=
  (Request.setup "demo" (.ofText "/work/demo")).op.after
    ((beginTransaction.after exposed).serve "default")

/-- The project has an intent file with the name of the document. -/
def lured : Workspace :=
  { pending with files :=
      ((writeIfChanged (.ofText "/work/demo/intent/graph.json.md") "g\n").after pending).files }

/-- The sources of the project are compiled. -/
def overwritten : Workspace :=
  (Request.build false forgers "demo" { stages := [.compilation] }).op.after (lured.serve "default")

theorem lived_overwritten : Lived Anything overwritten := by
  have hopened : Lived Anything exposed :=
    .opened (isFile_blank ((Path.ofText "/work/demo/src").child "graph.json")) (openGraph_blank _ _)
  have hpending : Lived Anything pending :=
    hopened.began.asked "default" (.request (.setup "demo" (.ofText "/work/demo")) trivial)
  have hlured : Lived Anything lured := hpending.outside
    ((writeIfChanged (.ofText "/work/demo/intent/graph.json.md") "g\n").after pending).files
  exact hlured.asked "default"
    (.request (.build false forgers "demo" { stages := [.compilation] }) trivial)

/-- An operation fails. -/
def failsIn {α : Type} (x : Op α) (w : Workspace) : Bool :=
  match x.run w with
  | .ok .. => false
  | .error .. => true

theorem failsIn_eq_true {α : Type} {x : Op α} {w : Workspace} (h : failsIn x w = true) :
    ∃ e w', x.run w = .error e w' := by
  unfold failsIn at h
  split at h
  · cases h
  · exact ⟨_, _, ‹_›⟩

/-- The graph that is opened from the document of the build has a node without a digest, which cannot
be deleted. -/
theorem forged : ∃ w, (openGraph overwritten.graph.root "default").run overwritten = .ok ⟨⟩ w ∧
    ∃ n ∈ w.tables.allNodes, n.content = some "x" ∧ n.contentHash = none ∧
      ∃ e w', (Graph.cascadeDelete n true).run w = .error e w' := by
  have hok : (openGraph overwritten.graph.root "default").gives overwritten (fun _ w =>
      w.tables.allNodes.any fun n => n.content == some "x" && n.contentHash == none &&
        failsIn (Graph.cascadeDelete n true) w) = true := by decide +kernel
  obtain ⟨⟨⟩, w, hrun, hany⟩ := gives_eq_true.mp hok
  obtain ⟨n, hn, htest⟩ := List.any_eq_true.mp hany
  simp only [Bool.and_eq_true, beq_iff_eq] at htest
  exact ⟨w, hrun, n, hn, htest.1.1, htest.1.2, failsIn_eq_true htest.2⟩

end IntentBuild.Workspace
