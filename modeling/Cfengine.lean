import Cfengine.Theory.Runs
import Cfengine.Theory.Probing
import Cfengine.Verify.HashTableMap
import Cfengine.Verify.Map
import Cfengine.Verify.Combinations
import Cfengine.Verify.Variables
import Cfengine.Verify.Expand
import Cfengine.Verify.Scope
import Cfengine.Verify.EnvContext
import Cfengine.Verify.SplitContext
import Cfengine.Verify.FilesNames
import Cfengine.Verify.Ipv4
import Cfengine.Verify.Ipv6
import Cfengine.Verify.PeerGroups
import Cfengine.Verify.Frames
import Cfengine.Verify.Server
import Cfengine.Verify.Promises
import Cfengine.Verify.ContextAccess
import Cfengine.Verify.Roles
import Cfengine.Verify.Access
import Cfengine.Verify.Connections
import Cfengine.Verify.CompareFiles
import Cfengine.Verify.Checksums
import Cfengine.Verify.Transfer
import Cfengine.Verify.Session
import Cfengine.Verify.Exec
import Cfengine.Verify.Lastseen
import Cfengine.Verify.LastseenMigration
import Cfengine.Verify.BlockInsertion
import Cfengine.Verify.RegionInsertion
import Cfengine.Json
import Cfengine.Verify.RemoteStat
import Cfengine.Verify.DirectoryListing
import Cfengine.Verify.PurgeLocks
import Cfengine.Verify.AcquireLock
import Cfengine.Verify.PersistentContext
import Cfengine.Verify.ClassHeaps
import Cfengine.Verify.CancelClasses
import Cfengine.Verify.PackageVersions
import Cfengine.Verify.LargestVersion
import Cfengine.Verify.Net
import Cfengine.GetStream
import Cfengine.CopyNet
import Cfengine.Verify.GetStream
import Cfengine.Verify.CopyNet
import Cfengine.Verify.InStep
import Cfengine.Verify.VersionParsing
import Cfengine.Verify.JsonNumbers
import Cfengine.Verify.JsonGrammar
import Cfengine.JsonPrimitives
import Cfengine.Verify.JsonPrimitives
import Cfengine.Rlist
import Cfengine.Verify.RvalPrint
import Cfengine.Verify.SplitString
import Cfengine.Verify.VersionNumbers
import Cfengine.Theory.Occurrences
import Cfengine.ColumnEdits
import Cfengine.Verify.FieldEdits
import Cfengine.Verify.SubValues
import Cfengine.Verify.FieldConvergence
import Cfengine.PatternReplacement
import Cfengine.Verify.PatternReplacement
import Cfengine.StringLib
import Cfengine.Verify.StringLib
import Cfengine.PrintLists
import Cfengine.Verify.PrintLists
import Cfengine.Theory.Segments
import Cfengine.Sort
import Cfengine.Verify.Sort
import Cfengine.Sequence
import Cfengine.Verify.Sequence
import Cfengine.Modes
import Cfengine.Verify.Modes
import Cfengine.Verify.ModeMasks
import Cfengine.Theory.Csv
import Cfengine.CsvWriter
import Cfengine.Verify.CsvWriter
import Cfengine.ListParsing
import Cfengine.Verify.ListParsing
import Cfengine.Granules
import Cfengine.Verify.Granules
import Cfengine.Verify.TimeKeys
import Cfengine.Verify.QuotedStrings
import Cfengine.Verify.AlphaLists
import Cfengine.Verify.Substring
import Cfengine.FilesCopy
import Cfengine.Verify.FilesCopy
import Cfengine.IpRange
import Cfengine.Verify.IpRange
import Cfengine.Theory.Custody
import Cfengine.Verify.MapOwnership
import Cfengine.Writer
import Cfengine.Verify.Writer
import Cfengine.Verify.StripPatterns
import Cfengine.FileArrays
import Cfengine.Verify.FileArrays
import Cfengine.PolicyNames
import Cfengine.Verify.PolicyNames
import Cfengine.Theory.Memo
import Cfengine.RemoteStatCache
import Cfengine.Verify.RemoteStatCache
import Cfengine.Verify.VariableRoutes
import Cfengine.Verify.Assignments
import Cfengine.Theory.Positions
import Cfengine.ParserPositions
import Cfengine.Verify.ParserPositions
import Cfengine.Verify.JsonRoundTrip
import Cfengine.Theory.Dialogue
import Cfengine.Authentication
import Cfengine.Verify.Authentication
import Cfengine.ExecTools
import Cfengine.Verify.ExecTools
import Cfengine.Theory.Checks
import Cfengine.Policy
import Cfengine.Verify.Policy
import Cfengine.Verify.Getopt
