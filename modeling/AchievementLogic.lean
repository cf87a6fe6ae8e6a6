import AchievementLogic.Achievement.Line
import AchievementLogic.Memory.Image
import AchievementLogic.Session.Loading
import AchievementLogic.Proofs.Runs
import AchievementLogic.Proofs.Text.Bytes
import AchievementLogic.Proofs.Text.Numerals
import AchievementLogic.Proofs.Trigger.Evaluation
import AchievementLogic.Proofs.Achievement.SavedText
import AchievementLogic.Proofs.Achievement.Restoring
import AchievementLogic.Proofs.Achievement.RoundTrip
import AchievementLogic.Proofs.Achievement.Resuming
import AchievementLogic.Proofs.Text.Reading
import AchievementLogic.Proofs.Text.Consuming
import AchievementLogic.Proofs.Trigger.Grammar
import AchievementLogic.Proofs.Trigger.OperandReading
import AchievementLogic.Proofs.Trigger.TriggerReading
import AchievementLogic.Proofs.Trigger.Printing
import AchievementLogic.Proofs.Trigger.Derivations
import AchievementLogic.Proofs.Trigger.Language
import AchievementLogic.Proofs.Trigger.EmptyAlternates
import AchievementLogic.Proofs.Leaderboard.Attempts
import AchievementLogic.Proofs.Session.AchievementReports
import AchievementLogic.Proofs.Session.Independence
import AchievementLogic.Proofs.Achievement.HitTargets
import AchievementLogic.Proofs.Trigger.Passes
import AchievementLogic.Proofs.Trigger.Gathering
import AchievementLogic.Proofs.Trigger.Guards
import AchievementLogic.Proofs.Trigger.Interchange
import AchievementLogic.Proofs.Trigger.Histories
import AchievementLogic.Proofs.Trigger.ChainOrder
import AchievementLogic.Proofs.Trigger.SingleHitResets
import AchievementLogic.Proofs.Session.LoadingProgress
import AchievementLogic.Proofs.Achievement.Tampering
import AchievementLogic.Proofs.Session.Resetting
import AchievementLogic.Proofs.Leaderboard.SectionOrder
import AchievementLogic.Proofs.Leaderboard.FreeText
import AchievementLogic.Proofs.Trigger.UnchangedHits
import AchievementLogic.Proofs.Trigger.LatchedTargets
import AchievementLogic.Proofs.Achievement.Lines
import AchievementLogic.Proofs.Session.LoadingEnds
import AchievementLogic.Proofs.Trigger.Priming
import AchievementLogic.Proofs.Trigger.RecalledReadings
import AchievementLogic.Proofs.Trigger.MeasuredResets
import AchievementLogic.Proofs.Number.NearestDouble
import AchievementLogic.Proofs.Number.ShortestDecimal
import AchievementLogic.Proofs.Text.Fractions
import AchievementLogic.Proofs.Number.DoubleText
import AchievementLogic.Proofs.Trigger.FloatLiterals
import AchievementLogic.Proofs.Trigger.Checks
import AchievementLogic.Proofs.Trigger.MeasuredTargets
import AchievementLogic.Proofs.Trigger.Combiners
import AchievementLogic.Proofs.Trigger.Endings
import AchievementLogic.Proofs.Trigger.Sums
import AchievementLogic.Proofs.Trigger.LoneConditions
import AchievementLogic.Proofs.Number.WordDoubles
import AchievementLogic.Proofs.Score.LoneAddresses
import AchievementLogic.Proofs.Presence.DisplayLines
import AchievementLogic.Proofs.Presence.Selection
import AchievementLogic.Proofs.Text.Treading
import AchievementLogic.Proofs.Trigger.Alphabet
import AchievementLogic.Proofs.Presence.Escaping
import AchievementLogic.Proofs.Presence.EscapedDisplay
import AchievementLogic.Proofs.Score.Times
import AchievementLogic.Proofs.Score.DistinctTexts
import AchievementLogic.Proofs.Presence.LookupTables
import AchievementLogic.Proofs.Presence.CommentLines
import AchievementLogic.Proofs.Trigger.DecodedReadings
import AchievementLogic.Proofs.Leaderboard.Rankings
import AchievementLogic.Proofs.Memory.WrittenRanges
import AchievementLogic.Proofs.Trigger.SpanEvaluation
import AchievementLogic.Proofs.Text.DigitRuns
import AchievementLogic.Proofs.Achievement.LineBoundaries
import AchievementLogic.Proofs.Presence.CommentScanning
