import PseudoLru.Access
import PseudoLru.AddressLayout
import PseudoLru.Cache
import PseudoLru.CacheSet
import PseudoLru.CommandLine.Arguments
import PseudoLru.CommandLine.Options
import PseudoLru.CommandLine.Report
import PseudoLru.Config
import PseudoLru.Decimal.Binary
import PseudoLru.Decimal.TwoPlaces
import PseudoLru.Encoding
import PseudoLru.Event
import PseudoLru.FileTree
import PseudoLru.Geometry
import PseudoLru.Geometry.Error
import PseudoLru.Json.Lexeme
import PseudoLru.Json.Record
import PseudoLru.Json.Skip
import PseudoLru.Line
import PseudoLru.Main
import PseudoLru.MatMul
import PseudoLru.OutOfRange
import PseudoLru.Proofs.AccessLog
import PseudoLru.Proofs.AddressFields
import PseudoLru.Proofs.ArithmeticInRange
import PseudoLru.Proofs.CacheRuns
import PseudoLru.Proofs.ColdMisses
import PseudoLru.Proofs.CommandGrammar
import PseudoLru.Proofs.ConfigCuts
import PseudoLru.Proofs.ConfigText
import PseudoLru.Proofs.Conservation
import PseudoLru.Proofs.EncodingTree
import PseudoLru.Proofs.EvictionBound
import PseudoLru.Proofs.FullReport
import PseudoLru.Proofs.FullSets
import PseudoLru.Proofs.JsonCuts
import PseudoLru.Proofs.JsonDocuments
import PseudoLru.Proofs.JsonGrammar
import PseudoLru.Proofs.JsonLexemes
import PseudoLru.Proofs.JsonMeaning
import PseudoLru.Proofs.JsonMembers
import PseudoLru.Proofs.JsonNumbers
import PseudoLru.Proofs.JsonRecords
import PseudoLru.Proofs.JsonSkipping
import PseudoLru.Proofs.JsonUnambiguity
import PseudoLru.Proofs.MatMulHits
import PseudoLru.Proofs.MatMulStream
import PseudoLru.Proofs.Merging
import PseudoLru.Proofs.Mismatch
import PseudoLru.Proofs.MissOrder
import PseudoLru.Proofs.MissRotation
import PseudoLru.Proofs.MissWalk
import PseudoLru.Proofs.NodeNumbers
import PseudoLru.Proofs.Numerals
import PseudoLru.Proofs.OptionGroups
import PseudoLru.Proofs.OptionOrder
import PseudoLru.Proofs.OptionSpelling
import PseudoLru.Proofs.OptionValues
import PseudoLru.Proofs.PathPatterns
import PseudoLru.Proofs.Recency
import PseudoLru.Proofs.Renaming
import PseudoLru.Proofs.Reporting
import PseudoLru.Proofs.Residency
import PseudoLru.Proofs.Results
import PseudoLru.Proofs.ReuseDistance
import PseudoLru.Proofs.Runs
import PseudoLru.Proofs.SetAccess
import PseudoLru.Proofs.SetRuns
import PseudoLru.Proofs.Sharding
import PseudoLru.Proofs.Soundness
import PseudoLru.Proofs.StateHistory
import PseudoLru.Proofs.StateSpace
import PseudoLru.Proofs.TraceGrammar
import PseudoLru.Proofs.TraceLines
import PseudoLru.Proofs.TreeWalk
import PseudoLru.Proofs.VictimFill
import PseudoLru.Proofs.WordBits
import PseudoLru.Simulator
import PseudoLru.Tally
import PseudoLru.Text.Blank
import PseudoLru.Text.Numeral
import PseudoLru.Text.Quoted
import PseudoLru.Text.Unprintable
import PseudoLru.Trace
import PseudoLru.Word
