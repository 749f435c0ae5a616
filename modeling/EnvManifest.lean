import EnvManifest.Manifest.Operation
import EnvManifest.Manifest.Saved
import EnvManifest.Proofs.Reading.Slot
import EnvManifest.Proofs.Grammar
import EnvManifest.Proofs.Reading.Number
import EnvManifest.Proofs.Reading.Literal
import EnvManifest.Proofs.Tree
import EnvManifest.Proofs.Legible
import EnvManifest.Proofs.Reading.Sound
import EnvManifest.Proofs.Reading.Complete
import EnvManifest.Proofs.Layout.View
import EnvManifest.Proofs.Decode
import EnvManifest.Proofs.Edit.Entries
import EnvManifest.Proofs.Edit.Fields
import EnvManifest.Proofs.Edit.Root
import EnvManifest.Proofs.Edit.Cases
import EnvManifest.Proofs.Says
import EnvManifest.Proofs.Addressing
import EnvManifest.Proofs.Lockstep
import EnvManifest.Proofs.Gap.SameLine
import EnvManifest.Proofs.Gap.Trivia
import EnvManifest.Proofs.Layout.Settle
import EnvManifest.Proofs.Layout.Indent
import EnvManifest.Proofs.Edit.Request
import EnvManifest.Proofs.Edit.Leave
import EnvManifest.Proofs.Reading.Untabbed
import EnvManifest.Proofs.Reload
import EnvManifest.Proofs.Edit.Atomic
import EnvManifest.Proofs.Failure
import EnvManifest.Proofs.Strict.Grammar
import EnvManifest.Proofs.Strict.Ink
import EnvManifest.Proofs.Strict.Plain
import EnvManifest.Proofs.Strict.Reading
import EnvManifest.Proofs.Strict.Layout
import EnvManifest.Proofs.Strict.Edit
import EnvManifest.Proofs.Strict.Manifest
import EnvManifest.Proofs.Canonical
import EnvManifest.Proofs.Attempt
import EnvManifest.Proofs.Internal
import EnvManifest.Proofs.Platforms
import EnvManifest.Proofs.Layout.Untouched
import EnvManifest.Proofs.Edit.Apart
import EnvManifest.Proofs.Untouched
import EnvManifest.Proofs.Walk
import EnvManifest.Proofs.Saved
import EnvManifest.Proofs.Listing
import EnvManifest.Proofs.Comments.Text
import EnvManifest.Proofs.Comments.Slot
import EnvManifest.Proofs.Comments.Layout
import EnvManifest.Proofs.Comments.Format
import EnvManifest.Proofs.Edit.Path
import EnvManifest.Proofs.Removal
import EnvManifest.Proofs.Appending
import EnvManifest.Proofs.Comments.Cut
import EnvManifest.Proofs.Comments.Line
import EnvManifest.Proofs.Layout.OneLine
import EnvManifest.Proofs.Migration
import EnvManifest.Proofs.Comments.Behind
import EnvManifest.Proofs.Comments.Beside
import EnvManifest.Proofs.Commuting
import EnvManifest.Proofs.Edit.Members
import EnvManifest.Proofs.Edit.Marks
import EnvManifest.Proofs.Edit.Environment
import EnvManifest.Proofs.Edit.Again
import EnvManifest.Proofs.Idempotence
import EnvManifest.Proofs.Reading.Exact
import EnvManifest.Proofs.Layout.Steady
import EnvManifest.Proofs.Layout.Fixpoint
import EnvManifest.Proofs.Layout.Ending
import EnvManifest.Proofs.TrailingComma
import EnvManifest.Proofs.Reading.Units
import EnvManifest.Proofs.Strict.Recognition
import EnvManifest.Proofs.Reading.Fault
import EnvManifest.Proofs.Tabs
import EnvManifest.Proofs.Entry
import EnvManifest.Proofs.Growing
import EnvManifest.Proofs.Validity
import EnvManifest.Proofs.Scripts
import EnvManifest.Proofs.Gap.Pieces
import EnvManifest.Proofs.Reading.Pointed
import EnvManifest.Proofs.Reading.Quotation
import EnvManifest.Proofs.Commands
