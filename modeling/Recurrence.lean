import Recurrence.Calendar.Journey
import Recurrence.Calendar.Uniform
import Recurrence.Json.Schedule
import Recurrence.Schedule.Draft
import Recurrence.Schedule.Sampling
import Recurrence.Schedule.WallClock
import Recurrence.Proofs.Gregorian.Dates
import Recurrence.Proofs.Gregorian.Days
import Recurrence.Proofs.Gregorian.Searches
import Recurrence.Proofs.Exchange
import Recurrence.Proofs.Gregorian.LeapSecond
import Recurrence.Proofs.Gregorian.Meaning
import Recurrence.Proofs.Gregorian.Outcomes
import Recurrence.Proofs.Gregorian.Occurrences
import Recurrence.Proofs.FieldOrder
import Recurrence.Proofs.ConditionOrder
import Recurrence.Proofs.Progression
import Recurrence.Proofs.SundaySpelling
import Recurrence.Proofs.Provenance
import Recurrence.Proofs.WallClock
import Recurrence.Proofs.Countdown
import Recurrence.Proofs.Firing
import Recurrence.Proofs.Uniform.Month
import Recurrence.Proofs.Uniform.BackwardWalks
import Recurrence.Proofs.Uniform.Occurrences
import Recurrence.Proofs.OnceAMonth
import Recurrence.Proofs.Workdays
import Recurrence.Proofs.Gregorian.DayLine
import Recurrence.Proofs.Gregorian.FourCenturies
import Recurrence.Proofs.Sampling
import Recurrence.Proofs.Json.Spelling
import Recurrence.Proofs.Json.Parts
import Recurrence.Proofs.Json.Grammar
import Recurrence.Proofs.Json.Respelling
import Recurrence.Proofs.Json.SpellingClass
import Recurrence.Proofs.Json.Construction
