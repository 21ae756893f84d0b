import ReoRs.BitSet
import ReoRs.Lib.Run
import ReoRs.Lib.Hiding
import ReoRs.Lib.Holdings
import ReoRs.Proofs.Unsilence
import ReoRs.Proofs.Elimination
import ReoRs.Proofs.Descending
import ReoRs.Proofs.HandOffSound
import ReoRs.Proofs.Coherence
import ReoRs.Proofs.Handshake
import ReoRs.Proofs.Guards
import ReoRs.Proofs.Functions
import ReoRs.Proofs.Fullness
import ReoRs.Proofs.Waiting
import ReoRs.Proofs.GroupMembers
import ReoRs.Proofs.GroupFlags
import ReoRs.Proofs.Exhaust
import ReoRs.Proofs.SelfPut
import ReoRs.Proofs.Release
import ReoRs.Proofs.GuardChecks
import ReoRs.Proofs.Temporaries
import ReoRs.Proofs.Panicking
import ReoRs.Proofs.ActionOrder
import ReoRs.Proofs.BitSetIter
import ReoRs.Proofs.BitSetPrograms
import ReoRs.Proofs.StateWaiters
import ReoRs.Proofs.HashOrder
import ReoRs.Proofs.Decimals
import ReoRs.Proofs.Refinement
import ReoRs.Proofs.ExactlyOnce
import ReoRs.Proofs.Alternator
import ReoRs.Proofs.SyncChannel
import ReoRs.Proofs.Ranked
import ReoRs.Proofs.Determinacy
import ReoRs.Proofs.Chain
import ReoRs.Proofs.Constraints
import ReoRs.Proofs.RuleOrder
