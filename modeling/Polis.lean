import Polis.Clustering.SmootherTheorems
import Polis.Clustering.LineageTheorems
import Polis.Conversation.InConvTheorems
import Polis.Poller.CacheTheorems
import Polis.Poller.AdmissionTheorems
import Polis.Poller.ServiceTheorems
import Polis.Queue.PublicationTheorems
import Polis.Delphi.ReleaseTheorems
import Polis.Delphi.ProviderTheorems
import Polis.Delphi.PoisonTheorems
import Polis.Coordinator.CanonicalTheorems
import Polis.Coordinator.TransitionTheorems
import Polis.Coordinator.DispatchTheorems
import Polis.Participation.NumberingTheorems
import Polis.Participation.VotesTheorems
import Polis.Participation.PostVotesTheorems
import Polis.Delphi.ResultTheorems
import Polis.Delphi.FinalizeTheorems
import Polis.Delphi.WireTheorems
import Polis.Delphi.ResultPaging
import Polis.Serving.SingleFlight
import Polis.Treevite.IssuanceCaps
import Polis.Serving.PcaCacheTheorems
import Polis.Serving.JsSemantics
import Polis.Delphi.EmbeddingRoundTrip
import Polis.Poller.PublicationsTheorems
import Polis.Poller.HandoffTheorems
import Polis.Serving.NextCommentTheorems
import Polis.Coordinator.SweepTheorems
import Polis.Queue.LogsTheorems
import Polis.Delphi.JobGuardConversation
import Polis.Treevite.NodeIssuanceTheorems
import Polis.Treevite.AcceptTheorems
import Polis.Serving.ReportExportAgreement
import Polis.Conversation.RepnessTheorems
import Polis.Participation.AdmissionTheorems
import Polis.Poller.ModerationTheorems
import Polis.Poller.ConventionTheorems
import Polis.Delphi.ResourceReadsTheorems
import Polis.Participation.VoteFieldsTheorems
import Polis.Conversation.ModUpdateTheorems
import Polis.Conversation.Consensus
import Polis.Clustering.PcaTheorems
import Polis.Clustering.SeedTheorems
import Polis.Conversation.GroupRest
import Polis.Conversation.ServedCounts
