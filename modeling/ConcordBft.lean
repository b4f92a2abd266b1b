import ConcordBft.ViewChange.FastPath
import ConcordBft.ViewChange.Agreement
import ConcordBft.Certificates.Quorum
import ConcordBft.Collector.Progress
import ConcordBft.Collector.SignerQuorum
import ConcordBft.Client.ReplyQuorum
import ConcordBft.Client.MsgReceiver
import ConcordBft.SparseMerkle.Pruning
import ConcordBft.RangeTree.Validate
import ConcordBft.ActiveWindow.Refinement
import ConcordBft.Messages.ViewChangeIteration
import ConcordBft.Messages.RequestsIterator
import ConcordBft.Keys.InProgress
import ConcordBft.Keys.OwnExchange
import ConcordBft.Execution.KeyAuthority
import ConcordBft.Execution.TimeService
import ConcordBft.PreProcessor.Endorsement
import ConcordBft.PreProcessor.CrashFree
import ConcordBft.Cmf.RoundTrip
import ConcordBft.Kvbc.Restart
import ConcordBft.Kvbc.V4Reads
import ConcordBft.Kvbc.StateSnapshot
import ConcordBft.Utt.Outputs
import ConcordBft.Utt.BurnOp
import ConcordBft.Utt.Aborts
import ConcordBft.StateTransfer.SourceSelector
import ConcordBft.PrincipalIds
import ConcordBft.Timers
