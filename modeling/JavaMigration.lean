import JavaMigration.Json.Reader
import JavaMigration.Main
import JavaMigration.Proofs.Descriptor.Backup
import JavaMigration.Proofs.Descriptor.BomImport
import JavaMigration.Proofs.Descriptor.ChildText
import JavaMigration.Proofs.Descriptor.Children
import JavaMigration.Proofs.Descriptor.Convergence
import JavaMigration.Proofs.Descriptor.Encoding
import JavaMigration.Proofs.Descriptor.Guarantees
import JavaMigration.Proofs.Descriptor.History
import JavaMigration.Proofs.Descriptor.InPlace
import JavaMigration.Proofs.Descriptor.Listing
import JavaMigration.Proofs.Descriptor.Lookup
import JavaMigration.Proofs.Descriptor.Pass
import JavaMigration.Proofs.Descriptor.Pinning
import JavaMigration.Proofs.Descriptor.Pins
import JavaMigration.Proofs.Descriptor.Plugin
import JavaMigration.Proofs.Descriptor.Project
import JavaMigration.Proofs.Descriptor.Properties
import JavaMigration.Proofs.Descriptor.Qualifier
import JavaMigration.Proofs.Descriptor.Reduction
import JavaMigration.Proofs.Descriptor.Sections
import JavaMigration.Proofs.Descriptor.Steady
import JavaMigration.Proofs.Descriptor.Summary
import JavaMigration.Proofs.Descriptor.Targets
import JavaMigration.Proofs.Descriptor.Writable
import JavaMigration.Proofs.Detection
import JavaMigration.Proofs.Detection.Exactness
import JavaMigration.Proofs.Entries
import JavaMigration.Proofs.FileTree.Below
import JavaMigration.Proofs.FileTree.Naming
import JavaMigration.Proofs.FileTree.Putting
import JavaMigration.Proofs.FileTree.Relative
import JavaMigration.Proofs.FileTree.Shown
import JavaMigration.Proofs.FileTree.Unlisted
import JavaMigration.Proofs.Ignore.NamePattern
import JavaMigration.Proofs.Imports.DryRun
import JavaMigration.Proofs.Imports.FirstMatch
import JavaMigration.Proofs.Imports.Idempotence
import JavaMigration.Proofs.Imports.Migration
import JavaMigration.Proofs.Imports.Occurrence
import JavaMigration.Proofs.Imports.Scan
import JavaMigration.Proofs.Imports.Segment
import JavaMigration.Proofs.Imports.Statement
import JavaMigration.Proofs.Imports.TableOrder
import JavaMigration.Proofs.Imports.Totals
import JavaMigration.Proofs.Imports.Use
import JavaMigration.Proofs.Json.Record
import JavaMigration.Proofs.Markup.Acceptance
import JavaMigration.Proofs.Markup.CharacterData
import JavaMigration.Proofs.Markup.Copying
import JavaMigration.Proofs.Markup.Encoding
import JavaMigration.Proofs.Markup.Escaping
import JavaMigration.Proofs.Markup.Forest
import JavaMigration.Proofs.Markup.Grammar
import JavaMigration.Proofs.Markup.Header
import JavaMigration.Proofs.Markup.Layout
import JavaMigration.Proofs.Markup.Mark
import JavaMigration.Proofs.Markup.Nesting
import JavaMigration.Proofs.Markup.Normal
import JavaMigration.Proofs.Markup.Order
import JavaMigration.Proofs.Markup.Place
import JavaMigration.Proofs.Markup.Reading
import JavaMigration.Proofs.Markup.RoundTrip
import JavaMigration.Proofs.Markup.Rule
import JavaMigration.Proofs.Markup.Search
import JavaMigration.Proofs.Markup.Stretch
import JavaMigration.Proofs.Markup.Structure
import JavaMigration.Proofs.Markup.Subtree
import JavaMigration.Proofs.Markup.Tag
import JavaMigration.Proofs.Number.Closest
import JavaMigration.Proofs.Number.DecimalText
import JavaMigration.Proofs.Number.Nearest
import JavaMigration.Proofs.Number.Order
import JavaMigration.Proofs.Number.Tenths
import JavaMigration.Proofs.Project.Accounting
import JavaMigration.Proofs.Project.AfterUpgrade
import JavaMigration.Proofs.Project.Breadth
import JavaMigration.Proofs.Project.DeclaredVersions
import JavaMigration.Proofs.Project.Records
import JavaMigration.Proofs.Project.Sources
import JavaMigration.Proofs.Project.Usage
import JavaMigration.Proofs.Project.Workload
import JavaMigration.Proofs.Settings.Storage
import JavaMigration.Proofs.Settings.Validity
import JavaMigration.Proofs.Table
import JavaMigration.Proofs.Text.Bytes
import JavaMigration.Proofs.Text.Charset
import JavaMigration.Proofs.Text.Trimming
import JavaMigration.Proofs.Toml.Arrangement
import JavaMigration.Proofs.Toml.Construction
import JavaMigration.Proofs.Toml.Field
import JavaMigration.Proofs.Toml.Inline
import JavaMigration.Proofs.Toml.Part
import JavaMigration.Proofs.Toml.Quotation
import JavaMigration.Proofs.Toml.Statement
import JavaMigration.Proofs.Walk
import JavaMigration.Proofs.Walk.Descent
import JavaMigration.Proofs.Walk.Enumeration
import JavaMigration.Proofs.Walk.Exclusion
import JavaMigration.Proofs.Walk.Workers
