import MeasurementLimiter.Runs
import MeasurementLimiter.Cyclic
import MeasurementLimiter.RingLinked
import MeasurementLimiter.RingCounters
import MeasurementLimiter.TsfPacing
import MeasurementLimiter.TsfSleep
import MeasurementLimiter.TsfConservation
import MeasurementLimiter.TsfBacklog
import MeasurementLimiter.TsfOrder
import MeasurementLimiter.TsfWake
import MeasurementLimiter.TsfDrain
import MeasurementLimiter.TsfRestart
import MeasurementLimiter.TsfChange
import MeasurementLimiter.SimRate
import MeasurementLimiter.SimWait
import MeasurementLimiter.RateAccounts
import MeasurementLimiter.RingAdmit
import MeasurementLimiter.RingDetach
import MeasurementLimiter.TsfHonest
import MeasurementLimiter.TsfWatchdog
import MeasurementLimiter.TsfDump
import MeasurementLimiter.TsfDepth
import MeasurementLimiter.TsfCharge
import MeasurementLimiter.TsfAgree
import MeasurementLimiter.TsfParents
import MeasurementLimiter.TsfBypass
import MeasurementLimiter.TsfCapacity
import MeasurementLimiter.RingSteps
import MeasurementLimiter.SimBlocks
import MeasurementLimiter.SimBursts
import MeasurementLimiter.RateWindows
import MeasurementLimiter.RateDensest
import MeasurementLimiter.RateNstream
import MeasurementLimiter.FiveTuple
import MeasurementLimiter.TupleBuffers
import MeasurementLimiter.BurstTotals
import MeasurementLimiter.RetransmissionLoss
import MeasurementLimiter.KunitDeque
import MeasurementLimiter.RingCycle
import MeasurementLimiter.TsfShaping
import MeasurementLimiter.RingSlots
import MeasurementLimiter.SimDelay
import MeasurementLimiter.TsfLimits
import MeasurementLimiter.RingUse
import MeasurementLimiter.TsfReturns
import MeasurementLimiter.RateSmooth
import MeasurementLimiter.RateFrames
import MeasurementLimiter.RateSeparate
import MeasurementLimiter.RateBursts
import MeasurementLimiter.TsfChange
