import Waveform.Main
import Waveform.Logic.Scan
import Waveform.Logic.EdgeTurns
import Waveform.Timeline.Guarded
import Waveform.Timeline.InPlace
import Waveform.Storage.Recording
import Waveform.Proofs.Operations
import Waveform.Proofs.PackedSamples
import Waveform.Proofs.PyramidGrowth
import Waveform.Proofs.RecordingHistory
import Waveform.Proofs.LogicPyramid
import Waveform.Proofs.QuietWindows
import Waveform.Proofs.EdgeBlocks
import Waveform.Proofs.EdgeQueries
import Waveform.Proofs.EdgeSpacing
import Waveform.Proofs.EdgeCoarsening
import Waveform.Proofs.GrowingScan
import Waveform.Proofs.ShownLevels
import Waveform.Proofs.CursorStability
import Waveform.Proofs.AnalogPyramid
import Waveform.Proofs.AnalogSamples
import Waveform.Proofs.BlockWriting
import Waveform.Proofs.AcquisitionSteps
import Waveform.Proofs.Requests
import Waveform.Proofs.FrameRecords
import Waveform.Proofs.TimelineCuts
import Waveform.Proofs.DetachedRecordings
import Waveform.Proofs.TimelineRemoval
import Waveform.Proofs.TimelineOrigin
import Waveform.Proofs.TimelineCropping
import Waveform.Proofs.TimelineHead
import Waveform.Proofs.CaptureTimes
import Waveform.Proofs.FiniteTurns
import Waveform.Proofs.FiniteQueries
import Waveform.Proofs.RefusedBlocks
import Waveform.Proofs.CaptionQueries
import Waveform.Proofs.ChannelIsolation
import Waveform.Proofs.RequestFailures
import Waveform.Proofs.GuardedEdits
import Waveform.Proofs.BrokenCalls
import Waveform.Proofs.WordLists
import Waveform.Proofs.NumberLists
import Waveform.Proofs.EnvelopeSections
import Waveform.Proofs.InPlaceErasure
import Waveform.Proofs.WordTransfers
import Waveform.Proofs.StoredSamples
import Waveform.Proofs.StoredLevels
import Waveform.Proofs.StoredRecordings
import Waveform.Proofs.WindowSearch
