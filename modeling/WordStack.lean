import WordStack.Form.Brackets
import WordStack.Session
import WordStack.Proofs.Control
import WordStack.Proofs.Bindings
import WordStack.Proofs.Frames
import WordStack.Proofs.Transparency
import WordStack.Proofs.Agreement
import WordStack.Proofs.Concatenation
import WordStack.Proofs.Grouping
import WordStack.Proofs.RoundTrip
import WordStack.Proofs.Lockstep
import WordStack.Proofs.Callbacks
import WordStack.Proofs.DepthLimit
import WordStack.Proofs.StackLocality
import WordStack.Proofs.Registrations
import WordStack.Proofs.MemberAccess
import WordStack.Proofs.Imports
import WordStack.Proofs.Directives
import WordStack.Proofs.FreshRuns
import WordStack.Proofs.Splicing
import WordStack.Proofs.Segmentation
import WordStack.Proofs.ListMutation
import WordStack.Proofs.Stepping
import WordStack.Proofs.LiveWalks
import WordStack.Proofs.HostIteration
import WordStack.Proofs.ListOperations
import WordStack.Proofs.ExactIntegers
import WordStack.Proofs.Comparisons
import WordStack.Proofs.Conversions
import WordStack.Proofs.KeyLists
import WordStack.Proofs.ScopeHistories
import WordStack.Proofs.Readings
import WordStack.Proofs.SpreadLists
import WordStack.Proofs.NamedCalls
