import MethodProbes.Text.Blank
import MethodProbes.Text.Numeral
import MethodProbes.Text.Hidden
import MethodProbes.Text.Quoted
import MethodProbes.SortedMap
import MethodProbes.Code.Value
import MethodProbes.Code.Insn
import MethodProbes.Code.Buffer
import MethodProbes.Marker.Error
import MethodProbes.Level.Interval
import MethodProbes.Level.Complement
import MethodProbes.Level.Gate
import MethodProbes.Level.Expr
import MethodProbes.Marker.Basic
import MethodProbes.Tracking.ProbeCall
import MethodProbes.Tracking.Sampler
import MethodProbes.Tracking.Declaration
import MethodProbes.Tracking.Basic
import MethodProbes.Tracking.Counters
import MethodProbes.Expansion.Cycle
import MethodProbes.Expansion.Step
import MethodProbes.Expansion.GateSteps
import MethodProbes.Expansion.MarkerSteps
import MethodProbes.Expansion.Expander
import MethodProbes.Expansion.Session
import MethodProbes.Method.Basic
import MethodProbes.Method.Batch
import MethodProbes.Method.Job
import MethodProbes.Script
import MethodProbes.CommandLine.Arguments
import MethodProbes.CommandLine.Run
import MethodProbes.Main
import MethodProbes.Proofs.Machine.Memory
import MethodProbes.Proofs.Machine.Basic
import MethodProbes.Proofs.Machine.Pass
import MethodProbes.Proofs.Machine.Ends
import MethodProbes.Proofs.Machine.Leaps
import MethodProbes.Proofs.Code.Operations
import MethodProbes.Proofs.Code.Slots
import MethodProbes.Proofs.Expansion.Layout
import MethodProbes.Proofs.Expansion.Written
import MethodProbes.Proofs.Expansion.MarkerCode
import MethodProbes.Proofs.Level.Skips
import MethodProbes.Proofs.Level.GateCode
import MethodProbes.Proofs.Level.GateRun
import MethodProbes.Proofs.Level.GuardRun
import MethodProbes.Proofs.Expansion.Sessions
import MethodProbes.Proofs.Level.GateCorrect
import MethodProbes.Proofs.Expansion.StoredVars
import MethodProbes.Proofs.Tracking.EntryCall
import MethodProbes.Proofs.Expansion.Coherent
import MethodProbes.Proofs.Run.Notes
import MethodProbes.Proofs.Run.Entry
import MethodProbes.Proofs.Run.Test
import MethodProbes.Proofs.Run.Exit
import MethodProbes.Proofs.Expansion.Labels
import MethodProbes.Proofs.Expansion.Pending
import MethodProbes.Proofs.Method.Site
import MethodProbes.Proofs.Method.Route
import MethodProbes.Proofs.Run.Outcome
import MethodProbes.Proofs.Run.Journey
import MethodProbes.Proofs.Cycles.EntryCalls
import MethodProbes.Proofs.Cycles.SampleDecision
import MethodProbes.Proofs.Cycles.EntryKnown
import MethodProbes.Proofs.Cycles.Bookkeeping
import MethodProbes.Proofs.Cycles.Durations
import MethodProbes.Proofs.Expansion.Phrases
import MethodProbes.Proofs.Machine.Paths
import MethodProbes.Proofs.Machine.StackTypes
import MethodProbes.Proofs.Expansion.PlacedLabels
import MethodProbes.Proofs.Session.StackDiscipline
import MethodProbes.Proofs.Session.Labels
import MethodProbes.Proofs.Expansion.Growth
import MethodProbes.Proofs.Code.Labels
import MethodProbes.Proofs.Session.Dangling
import MethodProbes.Proofs.Session.Slots
import MethodProbes.Proofs.Expansion.EarlyStores
import MethodProbes.Proofs.Machine.Assigned
import MethodProbes.Proofs.Method.Assignment
import MethodProbes.Proofs.Tracking.Reading
import MethodProbes.Proofs.Tracking.Recorded
import MethodProbes.Proofs.Cycles.Stretches
import MethodProbes.Proofs.Cycles.Reflection
import MethodProbes.Proofs.Expansion.Counts
import MethodProbes.Proofs.Cycles.CallCounts
import MethodProbes.Proofs.Cycles.CallTotals
import MethodProbes.Proofs.Expansion.SlotUse
import MethodProbes.Proofs.Cycles.SlotBudget
import MethodProbes.Proofs.Expansion.Announced
import MethodProbes.Proofs.Method.Registrations
import MethodProbes.Proofs.Maps
import MethodProbes.Proofs.Method.SideBySide
import MethodProbes.Proofs.Level.Canonical
import MethodProbes.Proofs.Level.Sweep
import MethodProbes.Proofs.Level.Checks
import MethodProbes.Proofs.Method.LevelTags
import MethodProbes.Proofs.Method.Segments
import MethodProbes.Proofs.Expansion.Renaming
import MethodProbes.Proofs.Method.FirstSlot
import MethodProbes.Proofs.Session.Renaming
import MethodProbes.Proofs.Expansion.Words
import MethodProbes.Proofs.Session.Words
import MethodProbes.Proofs.Session.Discipline
import MethodProbes.Proofs.Session.Independence
import MethodProbes.Proofs.Session.Alike
import MethodProbes.Proofs.Session.FreshCycles
import MethodProbes.Proofs.Text.Grammar
import MethodProbes.Proofs.Script.Rows
import MethodProbes.Proofs.Script.Language
import MethodProbes.Proofs.Script.Layout
import MethodProbes.Proofs.Level.Expressions
import MethodProbes.Proofs.Run.Frame
import MethodProbes.Proofs.Session.Asked
import MethodProbes.Proofs.Session.Failures
import MethodProbes.Proofs.Session.OpenCycles
import MethodProbes.Proofs.Session.EntryMeaning
import MethodProbes.Proofs.Session.TestMeaning
