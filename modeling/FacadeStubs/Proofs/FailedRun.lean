import FacadeStubs.CommandLine.Program
import FacadeStubs.Proofs.FileTree.Operations

/-!
# A failed run changes no file

A run decides everything before it writes, and each way of writing undoes its files when it fails.
So a run that ends with an error, and a command that ends with the exit code of an error, leave the
tree with the files it had: every file with its bytes, and no file more. What may be new is
directories (`Entry.Grown`).

A command can also end with that code behind a run that has succeeded: if the report cannot be shown
(`ReportUnshown`). This takes a path that is no text, and then the helper file has been written.
-/
namespace FacadeStubs

open Entry FileAction

namespace Generation

/-- A helper file that cannot be written leaves new directories at most; one that can be written is
all that is new beside such directories. -/
theorem writeHelper_ends (c : Config) (output : String) (stubs : List StubClass) (d : Disk) :
    Ends (writeHelper c output stubs) d
      (fun _ d' => ∃ d₁ place n, Widened d d₁ ∧ d'.here = d₁.here ∧
        Targets d₁ (Route.ofPath output) place n ∧ (Route.ofPath output).ending = .plain ∧
        Stores d₁.top d'.top (place ++ [n]) (Utf8.bytesOf (helperText stubs)))
      (fun _ d' => Grown d.top d'.top) := by
  unfold writeHelper
  dsimp only
  rw [ends_bind]
  refine (createDirectories_ends _ d).mono (fun _ d₁ h₁ => ?_) fun _ _ h => h.grown
  split
  · refine (replace_ends _ _ _ d₁).mono (fun _ d' h => ?_) fun _ d' h => ?_
    · obtain ⟨hhere, place, n, h⟩ := h
      exact ⟨d₁, place, n, h₁, hhere, h⟩
    · exact h₁.grown.trans (Grown.of_sightAt?_eq h)
  · refine (write_ends _ _ d₁).mono (fun _ d' h => ?_) fun _ d' h => ?_
    · obtain ⟨hhere, place, n, h⟩ := h
      exact ⟨d₁, place, n, h₁, hhere, h⟩
    · subst h
      exact h₁.grown

end Generation

namespace CommandLine

/-- A command either has touched nothing or is carried out with a config. -/
theorem generate_cases [Recovery] (console : Console) (d : Disk) (args : GenerateArgs) :
    (generate console d args).disk = d ∨ ∃ c, generate console d args = generateWith console d args c := by
  unfold generate
  dsimp only
  split
  · exact .inl rfl
  split
  · exact .inl rfl
  split
  · exact .inl rfl
  split
  · exact .inl rfl
  · exact .inr ⟨_, rfl⟩

/-- A report that cannot be shown comes too late for the helper file. -/
example : ((@Command.run .nothing { isText := fun _ => false } { top := .dir [("src", .dir [])] }
    (.generate { format := "json" })).exitCode,
    ((@Command.run .nothing { isText := fun _ => false } { top := .dir [("src", .dir [])] }
      (.generate { format := "json" })).disk.top.at? ["_ide-helper.php"]).isSome) = (2, true) := by
  decide +kernel

end CommandLine

end FacadeStubs
