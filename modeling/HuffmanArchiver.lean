import HuffmanArchiver.Fibonacci
import HuffmanArchiver.CanonicalOrder
import HuffmanArchiver.TableContents
import HuffmanArchiver.ReaderSafety
import HuffmanArchiver.WriterRuns
import HuffmanArchiver.ByteCounts
import HuffmanArchiver.CodeRefinement
import HuffmanArchiver.ForestInvariant
import HuffmanArchiver.ByteRuns
import HuffmanArchiver.CodeComparison
import HuffmanArchiver.ArchiveSizes
import HuffmanArchiver.Reference
import HuffmanArchiver.Sessions
import HuffmanArchiver.OutputStreams
import HuffmanArchiver.CodeStreams
import HuffmanArchiver.Proportions
import HuffmanArchiver.OptionOrder
