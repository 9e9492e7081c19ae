import ComponentIdentity.Component
import ComponentIdentity.Error
import ComponentIdentity.Report
import ComponentIdentity.Report.Walk
import ComponentIdentity.Bytes
import ComponentIdentity.Uuid.Sha1
import ComponentIdentity.Uuid
import ComponentIdentity.Minter
import ComponentIdentity.RefCache
import ComponentIdentity.Index
import ComponentIdentity.Index.Memory
import ComponentIdentity.Index.Stored
import ComponentIdentity.Resolution.Key
import ComponentIdentity.Resolution
import ComponentIdentity.Pipeline
import ComponentIdentity.Wire.Varint
import ComponentIdentity.Report.Payload
import ComponentIdentity.Report.Binary
import ComponentIdentity.Json.Text
import ComponentIdentity.Json.Token
import ComponentIdentity.Json.Value
import ComponentIdentity.Json.Pretty
import ComponentIdentity.Report.Document
import ComponentIdentity.Report.Format
import ComponentIdentity.Toml.Token
import ComponentIdentity.Toml.Document
import ComponentIdentity.Text.Blank
import ComponentIdentity.Settings
import ComponentIdentity.Files.Path
import ComponentIdentity.Files
import ComponentIdentity.Files.Report
import ComponentIdentity.Index.Encoding
import ComponentIdentity.Files.Index
import ComponentIdentity.Text.Hidden
import ComponentIdentity.Text.Quoted
import ComponentIdentity.CommandLine.Arguments
import ComponentIdentity.CommandLine.Answer
import ComponentIdentity.CommandLine
import ComponentIdentity.Workspace
import ComponentIdentity.Main
import ComponentIdentity.Proofs.Lineage
import ComponentIdentity.Proofs.Scope
import ComponentIdentity.Proofs.Cache
import ComponentIdentity.Proofs.Walk
import ComponentIdentity.Proofs.Run
import ComponentIdentity.Proofs.Keys
import ComponentIdentity.Proofs.Identifiers
import ComponentIdentity.Proofs.Tables
import ComponentIdentity.Proofs.Paths
import ComponentIdentity.Proofs.Database
import ComponentIdentity.Proofs.Rounds
import ComponentIdentity.Proofs.Declared
import ComponentIdentity.Proofs.Digits
import ComponentIdentity.Proofs.Spelling
import ComponentIdentity.Proofs.Binary
import ComponentIdentity.Proofs.Memory
import ComponentIdentity.Proofs.Tree
import ComponentIdentity.Proofs.Fresh
import ComponentIdentity.Proofs.Acceptance
import ComponentIdentity.Proofs.Seeds
import ComponentIdentity.Proofs.Deterministic
import ComponentIdentity.Proofs.Override
import ComponentIdentity.Proofs.Agreement
import ComponentIdentity.Proofs.History
import ComponentIdentity.Proofs.Reading
import ComponentIdentity.Proofs.Places
import ComponentIdentity.Proofs.Commands
import ComponentIdentity.Proofs.Words
import ComponentIdentity.Proofs.Levels
import ComponentIdentity.Proofs.Invocations
import ComponentIdentity.Proofs.Sessions
import ComponentIdentity.Proofs.Pretty
import ComponentIdentity.Proofs.Answers
import ComponentIdentity.Proofs.Continuity
import ComponentIdentity.Proofs.Unfolding
import ComponentIdentity.Proofs.Recording
import ComponentIdentity.Proofs.Branches
import ComponentIdentity.Proofs.Hierarchy
import ComponentIdentity.Proofs.Frame
import ComponentIdentity.Proofs.Preorder
import ComponentIdentity.Proofs.Repetition
import ComponentIdentity.Proofs.Candidates
import ComponentIdentity.Proofs.Renaming
import ComponentIdentity.Proofs.Siblings
import ComponentIdentity.Proofs.Unreachable
import ComponentIdentity.Proofs.Puts
import ComponentIdentity.Proofs.Delimited
import ComponentIdentity.Proofs.Shortest
import ComponentIdentity.Proofs.Lexemes
import ComponentIdentity.Proofs.Tokens
import ComponentIdentity.Proofs.Values
import ComponentIdentity.Proofs.Records
import ComponentIdentity.Proofs.Renderings
import ComponentIdentity.Proofs.Writable
import ComponentIdentity.Proofs.Namespaces
import ComponentIdentity.Proofs.Additions
import ComponentIdentity.Proofs.Progress
import ComponentIdentity.Proofs.Vacancy
import ComponentIdentity.Proofs.Enclosure
import ComponentIdentity.Proofs.Exhaustion
