import SealedContent.Bytes.Endian
import SealedContent.Bytes.EndianLemmas
import SealedContent.Text.Hex
import SealedContent.Text.Utf8
import SealedContent.Text.Blank
import SealedContent.Error
import SealedContent.Sha256
import SealedContent.Aes.BlockLemmas
import SealedContent.Aes.Cipher
import SealedContent.Aes.Modes
import SealedContent.Rsa.PrivateKey
import SealedContent.Keys.Family
import SealedContent.Keys.Derivation
import SealedContent.Keys.File
import SealedContent.Storage.BucketTree
import SealedContent.Storage.Basic
import SealedContent.Storage.Reader
import SealedContent.Storage.HashTree
import SealedContent.Storage.MediaUnits
import SealedContent.Storage.Options
import SealedContent.Archive.Partition
import SealedContent.Archive.HashedPartition
import SealedContent.Archive.RomImage.Writer
import SealedContent.Archive.ContentMeta
import SealedContent.Archive.Ticket
import SealedContent.Container.Contents
import SealedContent.GameCard
import SealedContent.Boot.FirstStage
import SealedContent.Boot.Kernel
import SealedContent.Proofs.Storage.Reads
import SealedContent.Proofs.HashTree.Validation
import SealedContent.Proofs.HashTree.Binding
import SealedContent.Proofs.Storage.History
import SealedContent.Proofs.Container.Building
import SealedContent.Proofs.Container.Patching
import SealedContent.Proofs.Container.Signed
import SealedContent.Proofs.Keys.Imports
import SealedContent.Proofs.Rsa.Recovery
import SealedContent.Proofs.Keys.Names
import SealedContent.Proofs.Text.Utf8
import SealedContent.Proofs.Keys.Files
import SealedContent.Proofs.RomImage.Links
import SealedContent.Proofs.RomImage.Walk
import SealedContent.Proofs.RomImage.Layout
import SealedContent.Proofs.RomImage.Paths
import SealedContent.Proofs.RomImage.Built
import SealedContent.Proofs.RomImage.Header
import SealedContent.Proofs.RomImage.RoundTrip
import SealedContent.Proofs.Container.Policies
import SealedContent.Proofs.HashTree.Honest
import SealedContent.Proofs.Container.MissingKeys
import SealedContent.Proofs.Container.Caching
import SealedContent.Proofs.Archive.Partition
import SealedContent.Proofs.Archive.GameCard
import SealedContent.Proofs.Storage.Scanning
import SealedContent.Proofs.Boot.Kernel
import SealedContent.Proofs.Keys.TitleKeys
import SealedContent.Proofs.Storage.TreeTables
import SealedContent.Proofs.Storage.Recency
import SealedContent.Proofs.HashTree.Verdicts
import SealedContent.Proofs.Aes.Streams
import SealedContent.Proofs.Storage.Counters
import SealedContent.Proofs.Keys.Spelling
import SealedContent.Proofs.Container.FileSystem
import SealedContent.Proofs.Storage.Cursor
import SealedContent.Proofs.Archive.Offsets
import SealedContent.Proofs.Archive.Relocation
import SealedContent.Proofs.Boot.FirstStage
import SealedContent.Proofs.Keys.LineImports
import SealedContent.Proofs.Archive.ContentMeta
import SealedContent.Proofs.Concurrency.Readers
