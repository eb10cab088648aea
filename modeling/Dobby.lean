import Dobby.Proofs.QueueWakeups
import Dobby.Proofs.SessionMap
import Dobby.Proofs.Stranded
import Dobby.Proofs.ExchangeOrder
import Dobby.Proofs.AgentPairing
import Dobby.Proofs.AgentRollback
import Dobby.Proofs.EmailReload
import Dobby.Proofs.HistoryAppend
import Dobby.Proofs.MemoryFrame
import Dobby.Proofs.SessionIsolation
import Dobby.Proofs.MemoryRoundTrip
import Dobby.Base.Glob
import Dobby.Proofs.CommandCheck
import Dobby.Model.Scheduler
import Dobby.Proofs.OllamaCalls
import Dobby.Proofs.MessageLedger
import Dobby.Proofs.WhatsappReplies
import Dobby.Proofs.SchedulerTable
import Dobby.Proofs.CommandMediation
import Dobby.Proofs.SchedulerJobs
import Dobby.Proofs.SchedulerFiring
import Dobby.Proofs.EmailSilence
import Dobby.Proofs.SubagentLock
import Dobby.Proofs.SubagentVerdict
import Dobby.Proofs.CliConversation
import Dobby.Proofs.Persistence
import Dobby.Proofs.MailThreads
import Dobby.Proofs.EmailPolls
import Dobby.Proofs.GatewayRequest
import Dobby.Proofs.SmtpReader
import Dobby.Proofs.SmtpMessage
import Dobby.Proofs.MailParts
import Dobby.Proofs.MailAddress
import Dobby.Proofs.WhatsappLines
import Dobby.Proofs.SerialReads
import Dobby.Proofs.SerialCommands
import Dobby.Proofs.OllamaNormal
import Dobby.Proofs.OpenaiCalls
import Dobby.Proofs.OpenaiRecovery
import Dobby.Proofs.ThinkTags
import Dobby.Proofs.AllowlistRemove
import Dobby.Proofs.PathConfinement
import Dobby.Proofs.AgentBounds
import Dobby.Proofs.AgentQuestion
import Dobby.Proofs.SessionLeases
import Dobby.Proofs.SchedulerRoom
import Dobby.Proofs.SchedulerIntervals
import Dobby.Proofs.ConfigMap
import Dobby.Proofs.OutputTokens
import Dobby.Proofs.StrbufGrowth
import Dobby.Proofs.ShellOutput
import Dobby.Proofs.SkillFiles
import Dobby.Proofs.HistoryDates
import Dobby.Proofs.Migration
import Dobby.Proofs.Settings
import Dobby.Model.CjsonText
import Dobby.Proofs.MemoryFacts
import Dobby.Proofs.ToolOffers
import Dobby.Proofs.GatewayReplies
import Dobby.Proofs.GatewayThreads
import Dobby.Proofs.CjsonRoundTrip
import Dobby.Proofs.SchedulerOnDisk
