import OtEditor.Intention
import OtEditor.Rebase
import OtEditor.Revisions
import OtEditor.Session
import OtEditor.Lib.Link
import OtEditor.Lib.Machine
import OtEditor.SessionLink
import OtEditor.Agreement
import OtEditor.Lib.Replica
import OtEditor.Convergence
import OtEditor.Joining
import OtEditor.OutOfRange
import OtEditor.Laws
import OtEditor.AllOrNothing
import OtEditor.Caret
import OtEditor.Decomposer
import OtEditor.Codec
import OtEditor.Lib.History
import OtEditor.Threads
import OtEditor.Newcomers
import OtEditor.Lib.Bisection
import OtEditor.DiffMatchPatch.Common
import OtEditor.DiffMatchPatch.CleanupMerge
import OtEditor.DiffMatchPatch.HalfMatch
import OtEditor.DiffMatchPatch.CleanupSemantic
import OtEditor.DiffMatchPatch.Lines
import OtEditor.Lib.Triple
import OtEditor.DiffMatchPatch.Bisect
import OtEditor.DiffMatchPatch.Main
import OtEditor.Typing
import OtEditor.TypingSession
import OtEditor.Progress
import OtEditor.SingleTypist
import OtEditor.Documents
