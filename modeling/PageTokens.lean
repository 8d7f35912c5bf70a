import PageTokens.Main
import PageTokens.FileTree
import PageTokens.Session
import PageTokens.Proofs.Partition
import PageTokens.Proofs.Printing
import PageTokens.Proofs.Rendering
import PageTokens.Proofs.Chunking
import PageTokens.Proofs.Lookahead
import PageTokens.Proofs.Resumption
import PageTokens.Proofs.Output
import PageTokens.Proofs.Consumers
import PageTokens.Proofs.Agreement
import PageTokens.Proofs.Layout
import PageTokens.Proofs.Concatenation
import PageTokens.Proofs.Truncation
import PageTokens.Proofs.Limits
import PageTokens.Proofs.TextDump
import PageTokens.Proofs.JsonDump
import PageTokens.Proofs.Balance
import PageTokens.Proofs.Finality
import PageTokens.Proofs.Checking
import PageTokens.Proofs.Configuration
import PageTokens.Proofs.Seam
import PageTokens.Proofs.Repertoire
import PageTokens.Proofs.Fidelity
import PageTokens.Proofs.Recoding
import PageTokens.Proofs.Classification
import PageTokens.Proofs.Angles
import PageTokens.Proofs.Log
import PageTokens.Proofs.Indexing
