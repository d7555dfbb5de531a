import EmbedSanitizer.Exactness
import EmbedSanitizer.Gate
import EmbedSanitizer.CallbackDetection
import EmbedSanitizer.EpochProgress
import EmbedSanitizer.HeldOrder
import EmbedSanitizer.SyncPlacement
import EmbedSanitizer.ReusedIds
import EmbedSanitizer.DroppedReads
import EmbedSanitizer.GrowableClocks
import EmbedSanitizer.Ownership
import EmbedSanitizer.SharedReads
import EmbedSanitizer.ReadHistory
import EmbedSanitizer.RacyFlag
import EmbedSanitizer.RaceReport
import EmbedSanitizer.CallStacks
import EmbedSanitizer.FileNames
import EmbedSanitizer.LineNumbers
import EmbedSanitizer.FunctionNames
import EmbedSanitizer.GatedDetection
import EmbedSanitizer.FirstReports
import EmbedSanitizer.ScheduleIndependence
import EmbedSanitizer.Expansion
import EmbedSanitizer.RealRaces
import EmbedSanitizer.ProgramReports
